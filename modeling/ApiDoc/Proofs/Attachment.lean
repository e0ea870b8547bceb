import ApiDoc.Proofs.Growth
import ApiDoc.Proofs.RenamedSteps

/-!
# What is attached to nodes

An element is attached to a node by the name of the node: whoever knows the name finds the node
again, and attaching the element there once more changes nothing. Files are put at nodes in the same
way. The nodes of a tree have different names, so entering them in an index makes one entry for each.
-/

namespace ApiDoc

/-! ### Elements on nodes -/

theorem Node.elements_load (n : Node) : n.load.elements = n.elements := rfl

theorem Node.files_attach (n : Node) (ref : ElementRef) : (n.attach ref).files = n.files := by
  rw [attach]
  split
  · cases ref.kind <;> rfl
  · rfl

theorem Node.mem_elements_attach {n : Node} {ref r : ElementRef}
    (h : r ∈ (n.attach ref).elements) : r = ref ∨ r ∈ n.elements := by
  by_cases hadmits : n.admits ref = true
  · exact List.mem_cons.mp ((perm_elements_attach hadmits).mem_iff.mp h)
  · rw [attach, if_neg hadmits] at h
    exact .inr h

/-- An element that is on a filed node is not attached again. -/
theorem Node.Filed.attach_of_mem {n : Node} (hn : n.Filed) {ref : ElementRef}
    (h : ref ∈ n.elements) : n.attach ref = n := by
  have hheld : ∃ kind elements key, n.attached? kind = some elements ∧
      elements.get? key = some ref := by
    simp only [elements, List.mem_append, NameMap.mem_values_iff, or_assoc] at h
    rcases h with ⟨key, hkey⟩ | ⟨key, hkey⟩ | ⟨key, hkey⟩ | ⟨key, hkey⟩ | ⟨key, hkey⟩
    · exact ⟨.class, _, key, rfl, hkey⟩
    · exact ⟨.interface, _, key, rfl, hkey⟩
    · exact ⟨.trait, _, key, rfl, hkey⟩
    · exact ⟨.function, _, key, rfl, hkey⟩
    · exact ⟨.constant, _, key, rfl, hkey⟩
  obtain ⟨kind, elements, key, hattached, hget⟩ := hheld
  obtain ⟨rfl, rfl⟩ := hn kind elements hattached key ref hget
  have hadmits : n.admits ref = false := by
    simp only [admits, hattached, NameMap.contains, hget]
    rfl
  rw [attach, if_neg (by simp [hadmits])]

namespace Taxonomy

/-- The element is attached to the node with a number. -/
def Holds (t : Taxonomy) (id : Nat) (ref : ElementRef) : Prop :=
  ∃ n, t.node? id = some n ∧ ref ∈ n.elements

theorem mem_elements_iff {t : Taxonomy} {ref : ElementRef} :
    ref ∈ t.elements ↔ ∃ id, t.Holds id ref := by
  rw [elements, List.mem_flatMap]
  constructor
  · rintro ⟨n, hn, href⟩
    obtain ⟨id, hid⟩ := List.getElem?_of_mem hn
    exact ⟨id, n, hid, href⟩
  · rintro ⟨id, n, hn, href⟩
    exact ⟨n, List.mem_of_getElem? hn, href⟩

theorem WellFormed.attachAt {t : Taxonomy} (ht : t.WellFormed) (fullName : Fqsen)
    (ref : ElementRef) : (Compile.attachAt t fullName ref).WellFormed := by
  obtain ⟨hwell, -, -⟩ := wellFormed_ensure ht fullName
  refine hwell.modifyNode _ (fun n hn => Node.filed_attach hn ref) fun n segment child h => .inl ?_
  have hplace := (Node.loads_attach ref).place n
  rwa [hplace.children_eq] at h

theorem WellFormed.attachAll {t : Taxonomy} (ht : t.WellFormed)
    (named : List (ElementRef × Fqsen)) :
    (named.foldl (fun t e => Compile.attachAt t e.2 e.1) t).WellFormed := by
  induction named generalizing t with
  | nil => exact ht
  | cons e rest ih =>
    rw [List.foldl_cons]
    exact ih (ht.attachAt e.2 e.1)

/-- Elements that are attached at names, one after the other: what is on a node was there, or leads
there by its name. -/
theorem Branches.attachAll {t : Taxonomy} {paths : List (List String)} {load : List String → Node}
    (h : t.Branches paths load) (named : List (ElementRef × Fqsen)) :
    ∃ grown onto,
      (named.foldl (fun t e => Compile.attachAt t e.2 e.1) t).Branches grown onto ∧
      (∀ p ∈ paths, p ∈ grown) ∧
      (∀ p, (onto p).files = (load p).files) ∧
      ∀ p ref, ref ∈ (onto p).elements →
        ref ∈ (load p).elements ∨ ∃ e ∈ named, e.1 = ref ∧ e.2.segments = p := by
  induction named generalizing t paths load with
  | nil => exact ⟨paths, load, h, fun _ hp => hp, fun _ => rfl, fun _ _ href => .inl href⟩
  | cons e rest ih =>
    obtain ⟨made, hmade, hend, hpaths⟩ := h.ensure e.2
    obtain ⟨grown, onto, hgrown, hkept, hfiles, honto⟩ :=
      ih (hmade.modifyNode hend (Node.loads_attach e.1))
    refine ⟨grown, onto, hgrown, fun p hp => hkept p ((hpaths p).mpr (.inl hp)), fun p => ?_,
      fun p ref href => ?_⟩
    · rw [hfiles]
      split
      · exact Node.files_attach (load p) e.1
      · rfl
    · rcases honto p ref href with hthere | ⟨later, hlater, hleads⟩
      · split at hthere
        · next hp =>
          rcases Node.mem_elements_attach hthere with rfl | hthere
          · exact .inr ⟨e, List.mem_cons_self, rfl, hp.symm⟩
          · exact .inl hthere
        · exact .inl hthere
      · exact .inr ⟨later, List.mem_cons_of_mem _ hlater, hleads⟩

/-- An element that is attached by its name only is at the node of the name and nowhere else. -/
theorem Branches.exists_holds_iff {t : Taxonomy} {paths : List (List String)}
    {load : List String → Node} (h : t.Branches paths load) {ref : ElementRef} {fullName : Fqsen}
    (hname : ∀ p, ref ∈ (load p).elements → p = fullName.segments) (href : ref ∈ t.elements) :
    ∃ id, t.find? fullName = some id ∧ ∀ other, t.Holds other ref ↔ other = id := by
  have hfound {id : Nat} (hid : t.Holds id ref) : t.find? fullName = some id := by
    obtain ⟨n, hn, hmem⟩ := hid
    obtain ⟨path, hpath, hlies⟩ := h.exists_path hn
    rw [← Node.elements_load, hlies.load_eq] at hmem
    rw [h.find?_eq_some_iff, ← hname path hmem, hpath]
  obtain ⟨id, hid⟩ := mem_elements_iff.mp href
  refine ⟨id, hfound hid, fun other => ⟨fun hother => ?_, fun heq => heq ▸ hid⟩⟩
  exact Option.some.inj ((hfound hother).symm.trans (hfound hid))

end Taxonomy

/-! ### Files on nodes -/

/-- The file with a path and a number is with the node. -/
def Taxonomy.HoldsFile (t : Taxonomy) (node : Nat) (path : String) (file : Nat) : Prop :=
  ∃ n, t.node? node = some n ∧ n.files.get? path = some file

theorem Taxonomy.Branches.holdsFile_iff {t : Taxonomy} {paths : List (List String)}
    {load : List String → Node} (h : t.Branches paths load) {node : Nat} {path : String}
    {file : Nat} : t.HoldsFile node path file ↔
      ∃ p, paths[node]? = some p ∧ (load p).files.get? path = some file := by
  constructor
  · rintro ⟨n, hn, hfile⟩
    obtain ⟨p, hp, hlies⟩ := h.exists_path hn
    exact ⟨p, hp, by rwa [← hlies.load_eq]⟩
  · rintro ⟨p, hp, hfile⟩
    obtain ⟨n, hn, hlies⟩ := h.exists_node hp
    exact ⟨n, hn, by rwa [← hlies.load_eq] at hfile⟩

namespace Placing

/-- What is on a node after files with different paths were placed. -/
theorem get?_files_foldl_onto {entries : List Placing} (hpaths : (entries.map path).Nodup)
    {load : List String → Node} (hnew : ∀ e ∈ entries, ∀ p, (load p).files.get? e.path = none)
    (p : List String) (file : String) (id : Nat) :
    (entries.foldl onto load p).files.get? file = some id ↔
      (∃ e ∈ entries, e.path = file ∧ e.id = id ∧ e.name.segments = p) ∨
        (load p).files.get? file = some id := by
  induction entries generalizing load with
  | nil => simp
  | cons e rest ih =>
    obtain ⟨hfirst, hrest⟩ := List.nodup_cons.mp hpaths
    have hput (q : List String) (key : String) : (onto load e q).files.get? key =
        if q = e.name.segments ∧ e.path = key then some e.id else (load q).files.get? key := by
      rw [onto]
      split
      · next hq =>
        rw [Node.addFile, NameMap.get?_insert]
        simp [hq]
      · next hq => rw [if_neg fun h => hq h.1]
    rw [List.foldl_cons, ih hrest fun later hlater q => ?_, hput]
    · rw [List.exists_mem_cons_iff]
      by_cases hhere : p = e.name.segments ∧ e.path = file
      · obtain ⟨rfl, rfl⟩ := hhere
        simp [hnew e List.mem_cons_self, or_comm]
      · rw [if_neg hhere]
        have hnot : ¬ (e.path = file ∧ e.id = id ∧ e.name.segments = p) := fun h =>
          hhere ⟨h.2.2.symm, h.1⟩
        simp [hnot]
    · rw [hput, if_neg fun h => hfirst (List.mem_map.mpr ⟨later, hlater, h.2.symm⟩)]
      exact hnew later (List.mem_cons_of_mem _ hlater) q

theorem elements_foldl_onto (entries : List Placing) (load : List String → Node)
    (p : List String) : (entries.foldl onto load p).elements = (load p).elements := by
  induction entries generalizing load with
  | nil => rfl
  | cons e rest ih =>
    rw [List.foldl_cons, ih, onto]
    split <;> rfl

end Placing

/-! ### Entries of nodes -/

namespace NameMap

variable {α β : Type}

/-- Values under new and different keys are added to those that are there. -/
theorem perm_entries_insertAll {key : β → String} {value : β → α} {items : List β}
    (hkeys : (items.map key).Nodup) {m : NameMap α} (hnew : ∀ b ∈ items, m.get? (key b) = none) :
    (items.foldl (fun m b => m.insert (key b) (value b)) m).entries.Perm
      (items.map (fun b => (key b, value b)) ++ m.entries) := by
  induction items generalizing m with
  | nil => exact .refl _
  | cons b rest ih =>
    obtain ⟨hfirst, hrest⟩ := List.nodup_cons.mp hkeys
    have hinsert : (m.insert (key b) (value b)).entries.Perm ((key b, value b) :: m.entries) :=
      perm_insertIn (hnew b List.mem_cons_self) (value b)
    refine (ih hrest fun later hlater => ?_).trans ?_
    · rw [get?_insert, if_neg fun heq => hfirst (List.mem_map.mpr ⟨later, hlater, heq.symm⟩)]
      exact hnew later (List.mem_cons_of_mem _ hlater)
    · exact (hinsert.append_left _).trans List.perm_middle

theorem insert_of_get? {m : NameMap α} {key : String} {value : α} (h : m.get? key = some value) :
    m.insert key value = m := by
  refine ext_get? fun other => ?_
  rw [get?_insert]
  split
  · next heq => rw [← heq, h]
  · rfl

end NameMap

theorem ApiSet.addEntry_of_get? {s : ApiSet} {name key : String} {target : Target}
    (h : (s.index name).get? key = some target) : s.addEntry name key target = s := by
  have hindex : s.indexes.get? name = some (s.index name) := by
    cases hget : s.indexes.get? name with
    | none => simp [index, hget] at h
    | some i => simp [index, hget]
  rw [addEntry, setIndex, NameMap.insert_of_get? h, NameMap.insert_of_get? hindex]

theorem ApiSet.file?_congr {s t : ApiSet} (h : t.files = s.files) (id : Nat) :
    t.file? id = s.file? id := by
  rw [file?, file?, h]

theorem ApiSet.item?_congr {s t : ApiSet} (h : t.files = s.files) (ref : ElementRef) :
    t.item? ref = s.item? ref := by
  rw [item?, item?, file?_congr h]

/-- Where all of an element is seen to stay, addresses lead to the same elements. -/
theorem ApiSet.Retouch.item?_eq {s t : ApiSet} (h : s.Retouch (fun item => item) t)
    (ref : ElementRef) : t.item? ref = s.item? ref := by
  rw [ApiSet.item?_eq, h.spotOf_eq, ApiSet.item?_eq]
  cases s.spotOf ref with
  | none => rfl
  | some p => simpa using h.view_eq ref.file p

namespace Compile

section EnterNodes

variable (mark : String) {name : String} (hname : name ≠ Index.elements) (target : Nat → Target)
include hname

theorem index_enterNodes_name (nodes : List Node) (s : ApiSet) :
    (enterNodes mark name target nodes s).index name =
      nodes.foldl (fun i n => i.insert n.fullName.text (target n.id)) (s.index name) := by
  induction nodes generalizing s with
  | nil => rfl
  | cons n rest ih =>
    refine (ih _).trans ?_
    rw [List.foldl_cons, ApiSet.index_addEntry, if_pos rfl, ApiSet.index_addEntry,
      if_neg hname.symm]

theorem index_enterNodes_elements (nodes : List Node) (s : ApiSet) :
    (enterNodes mark name target nodes s).index Index.elements =
      nodes.foldl (fun i n => i.insert (mark ++ n.fullName.text) (target n.id))
        (s.index Index.elements) := by
  induction nodes generalizing s with
  | nil => rfl
  | cons n rest ih =>
    refine (ih _).trans ?_
    rw [List.foldl_cons, ApiSet.index_addEntry, if_neg hname, ApiSet.index_addEntry, if_pos rfl]

variable {nodes : List Node} (hnodes : (nodes.map fun n => n.fullName.text).Nodup) {s : ApiSet}
include hnodes

/-- Nodes with different names are entered once each in their index. -/
theorem perm_index_enterNodes (hempty : s.index name = .empty) :
    ((enterNodes mark name target nodes s).index name).entries.Perm
      (nodes.map fun n => (n.fullName.text, target n.id)) := by
  rw [index_enterNodes_name mark hname, hempty]
  refine (NameMap.perm_entries_insertAll hnodes fun n _ => rfl).trans (.of_eq ?_)
  exact List.append_nil _

/-- Nodes with different names are entered once each among all elements. -/
theorem perm_elements_enterNodes (hnew : ∀ key, s.lookup (mark ++ key) = none) :
    ((enterNodes mark name target nodes s).index Index.elements).entries.Perm
      (nodes.map (fun n => (mark ++ n.fullName.text, target n.id)) ++
        (s.index Index.elements).entries) := by
  rw [index_enterNodes_elements mark hname]
  refine NameMap.perm_entries_insertAll ?_ fun n _ => ?_
  · refine (List.pairwise_map.mpr ?_)
    refine (List.pairwise_map.mp hnodes).imp fun hne heq => hne ?_
    exact (String.append_right_inj mark).mp heq
  · rw [← ApiSet.lookup_eq]
    exact hnew _

end EnterNodes

/-- A fold none of whose steps changes where it starts. -/
theorem foldl_eq_self {α β : Type} {step : β → α → β} {start : β} {items : List α}
    (h : ∀ a ∈ items, step start a = start) : items.foldl step start = start := by
  induction items with
  | nil => rfl
  | cons a rest ih =>
    rw [List.foldl_cons, h a List.mem_cons_self]
    exact ih fun b hb => h b (List.mem_cons_of_mem _ hb)

/-- Entering nodes that are there changes nothing. -/
theorem enterNodes_of_entered {mark name : String} {target : Nat → Target} {nodes : List Node}
    {s : ApiSet} (h : ∀ n ∈ nodes,
      (s.index Index.elements).get? (mark ++ n.fullName.text) = some (target n.id) ∧
        (s.index name).get? n.fullName.text = some (target n.id)) :
    enterNodes mark name target nodes s = s := by
  refine foldl_eq_self fun n hn => ?_
  obtain ⟨hmarked, hnamed⟩ := h n hn
  dsimp only
  rw [ApiSet.addEntry_of_get? hmarked, ApiSet.addEntry_of_get? hnamed]

theorem modifyNode_eq_self {t : Taxonomy} {id : Nat} {g : Node → Node}
    (h : ∀ n, t.node? id = some n → g n = n) : t.modifyNode id g = t := by
  have hsame : t.nodes.modify id g = t.nodes := by
    refine List.ext_getElem? fun i => ?_
    rw [List.getElem?_modify]
    split
    · next heq =>
      subst heq
      cases hn : t.nodes[id]? with
      | none => rfl
      | some n => rw [Option.map_eq_map, Option.map_some, h n hn]
    · simp
  rw [Taxonomy.modifyNode, hsame]

/-- Attaching an element where it is changes nothing. -/
theorem attachAt_of_holds {t : Taxonomy} (ht : t.WellFormed) {fullName : Fqsen} {id : Nat}
    (hfound : t.find? fullName = some id) {ref : ElementRef} (href : t.Holds id ref) :
    attachAt t fullName ref = t := by
  obtain ⟨n, hn, hmem⟩ := href
  rw [attachAt, Taxonomy.ensure_of_find? hfound]
  refine modifyNode_eq_self fun m hm => ?_
  obtain rfl := Option.some.inj (hn.symm.trans hm)
  exact (ht.filed n (List.mem_of_getElem? hn)).attach_of_mem hmem

/-- The tree of namespaces is left as it is by the step that builds it. -/
theorem withSpaces_of_filed {t : ApiSet} (ht : t.namespaces.WellFormed)
    (hheld : ∀ ref ∈ t.topLevelEntries, ∃ id, t.namespaces.find? ref.fqsen.enclosing = some id ∧
      t.namespaces.Holds id ref)
    (hentered : ∀ n ∈ t.namespaces.nodes,
      (t.index Index.elements).get? ("~" ++ n.fullName.text) = some (.spaceNode n.id) ∧
        (t.index Index.namespaces).get? n.fullName.text = some (.spaceNode n.id)) :
    withSpaces t = t := by
  have htree : t.topLevelEntries.foldl (fun u ref => attachAt u ref.fqsen.enclosing ref)
      t.namespaces = t.namespaces := by
    refine foldl_eq_self fun ref href => ?_
    obtain ⟨id, hfound, hheldThere⟩ := hheld ref href
    exact attachAt_of_holds ht hfound hheldThere
  unfold withSpaces
  rw [htree]
  exact enterNodes_of_entered hentered

end Compile

end ApiDoc
