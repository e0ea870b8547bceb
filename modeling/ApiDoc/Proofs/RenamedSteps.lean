import ApiDoc.Proofs.Branches
import ApiDoc.Proofs.Linking

/-!
# Steps on renamed sets

Each step of the compiler leads from sets that are renamings of each other to sets that are. The
indexes are built alike as long as no two elements share a name, and the tree of packages fixes the
numbers of its nodes: in both trees the files are placed in their own order, after which all nodes
are made in the same order.
-/

namespace ApiDoc

theorem NameMap.map_filter {α β : Type} {a : α → β} {keep : α → Bool} {keep' : β → Bool}
    (h : ∀ x, keep' (a x) = keep x) (m : NameMap α) :
    (m.map a).filter (fun _ => keep') = (m.filter fun _ => keep).map a := by
  refine ext_get? fun key => ?_
  simp only [get?_map, get?_filter]
  cases m.get? key with
  | none => rfl
  | some x => cases hk : keep x <;> simp [Option.filter, h, hk]

namespace Compile

variable {ρ : Renaming}

/-! ### Indexes -/

/-- No name is repeated where all names differ. -/
theorem repeats_eq_nil_iff (seen : NameMap ElementRef) (refs : List ElementRef) :
    repeats seen refs = [] ↔ (∀ ref ∈ refs, seen.get? ref.fqsen.text = none) ∧
      (refs.map fun ref => ref.fqsen.text).Nodup := by
  induction refs generalizing seen with
  | nil => simp [repeats]
  | cons ref rest ih =>
    rw [repeats, List.forall_mem_cons, List.map_cons, List.nodup_cons]
    cases hseen : seen.get? ref.fqsen.text with
    | some earlier => simp
    | none =>
      dsimp only
      rw [ih]
      simp only [NameMap.get?_insert, List.mem_map, true_and]
      constructor
      · rintro ⟨hrest, hnodup⟩
        refine ⟨fun other hother => ?_, ?_, hnodup⟩
        · have hnone := hrest other hother
          split at hnone
          · simp at hnone
          · exact hnone
        · rintro ⟨other, hother, heq⟩
          simpa [heq] using hrest other hother
      · rintro ⟨hrest, hnew, hnodup⟩
        refine ⟨fun other hother => ?_, hnodup⟩
        rw [if_neg fun heq => hnew ⟨other, hother, heq.symm⟩]
        exact hrest other hother

theorem failure_buildIndexes_iff (s : ApiSet) : (buildIndexes true s).failure = none ↔
    (s.allElements.map fun ref => ref.fqsen.text).Nodup := by
  have hrepeats := repeats_eq_nil_iff .empty s.allElements
  simp only [NameMap.get?_empty, implies_true, true_and] at hrepeats
  rw [← hrepeats]
  unfold buildIndexes
  cases repeats .empty s.allElements <;> simp [Attempt.fail]

/-- Elements whose names differ can be entered in any order. -/
theorem indexOf_of_perm {refs refs' : List ElementRef}
    (hperm : refs'.Perm (refs.map (ElementRef.rename ρ)))
    (hnames : (refs.map fun ref => ref.fqsen.text).Nodup) :
    indexOf refs' = (indexOf refs).rename ρ := by
  have hnodup : (refs'.map fun ref => ref.fqsen.text).Nodup := by
    refine (hperm.map _).nodup_iff.mpr ?_
    rw [List.map_map]
    exact hnames
  have hfold (refs : List ElementRef) (i : Index) :
      (refs.map (ElementRef.rename ρ)).foldl
        (fun i ref => i.insert ref.fqsen.text (.element ref)) (i.rename ρ) =
      Index.rename ρ (refs.foldl (fun i ref => i.insert ref.fqsen.text (.element ref)) i) := by
    induction refs generalizing i with
    | nil => rfl
    | cons ref rest ih =>
      have hinsert := i.map_insert (Target.rename ρ) ref.fqsen.text (.element ref)
      exact (congrArg (List.foldl _ · _) hinsert.symm).trans (ih _)
  rw [indexOf, hperm.foldl_eq' fun a ha b hb i => ?_]
  · exact hfold refs .empty
  · by_cases heq : a.fqsen.text = b.fqsen.text
    · rw [List.inj_on_of_nodup_map hnodup ha hb heq]
    · exact i.insert_comm heq _ _

end Compile

namespace ApiSet.Renamed

open Compile

variable {ρ : Renaming} {s t : ApiSet} (h : s.Renamed ρ t)
include h

theorem setIndex {i j : Index} (hij : j = i.rename ρ) (name : String) :
    (s.setIndex name i).Renamed ρ (t.setIndex name j) := by
  refine { h with indexes := ?_ }
  rw [ApiSet.setIndex, ApiSet.setIndex, NameMap.map_insert, h.indexes, hij]

theorem addEntry (name key : String) (target : Target) :
    (s.addEntry name key target).Renamed ρ (t.addEntry name key (target.rename ρ)) := by
  refine h.setIndex ?_ name
  rw [h.index_eq, Index.rename, Index.rename, NameMap.map_insert]

theorem withIndexes (hnames : (s.allElements.map fun ref => ref.fqsen.text).Nodup) :
    (withIndexes s).Renamed ρ (withIndexes t) := by
  have hkind (kind : ElementKind) :
      indexOf (ofKind kind t.allElements) = (indexOf (ofKind kind s.allElements)).rename ρ := by
    refine indexOf_of_perm ?_ (hnames.sublist (List.filter_sublist.map _))
    refine (h.perm_allElements.filter _).trans (.of_eq ?_)
    rw [List.filter_map]
    rfl
  have hstart := h.setIndex (indexOf_of_perm h.perm_allElements hnames) Index.elements
  exact ((((hstart.setIndex (hkind _) _).setIndex (hkind _) _).setIndex (hkind _) _).setIndex
    (hkind _) _).setIndex (hkind _) _

/-! ### References -/

theorem resolve_eq (name : String) (scope : Scope) :
    (t.resolve name scope).text = (s.resolve name scope).text ∧
      (t.resolve name scope).target? = (s.resolve name scope).target?.map (Target.rename ρ) := by
  have hfirst (keys : List String) : Resolution.firstEntry t.lookup keys =
      (Resolution.firstEntry s.lookup keys).map fun e => (e.1, e.2.rename ρ) := by
    induction keys with
    | nil => rfl
    | cons key rest ih =>
      rw [Resolution.firstEntry, Resolution.firstEntry, h.lookup_eq]
      cases s.lookup key with
      | none => exact ih
      | some target => rfl
  simp only [ApiSet.resolve, Resolution.resolve, hfirst]
  cases Resolution.firstEntry s.lookup (Resolution.candidates name scope) with
  | some e => exact ⟨rfl, rfl⟩
  | none =>
    cases Resolution.firstEntry s.lookup
        ((Resolution.candidates name scope).map fun key => Resolution.spaceMark.toString ++ key) with
    | some e => exact ⟨rfl, rfl⟩
    | none => exact ⟨rfl, rfl⟩

theorem linkReference_eq (scope : Scope) (r : Reference) :
    linkReference t scope (r.rename ρ) = (linkReference s scope r).rename ρ := by
  have htarget : (r.rename ρ).target = r.target := rfl
  rw [linkReference, linkReference, htarget]
  split
  · rfl
  · obtain ⟨htext, hfound⟩ := h.resolve_eq r.target scope
    simp only [htext, hfound, Reference.rename]

theorem linkTags_eq (scope : Scope) (tags : Tags) :
    linkTags t scope (tags.rename ρ) = (linkTags s scope tags).rename ρ := by
  have htag (tag : Tag) :
      (tag.mapReference (Reference.rename ρ)).mapReference (linkReference t scope) =
        (tag.mapReference (linkReference s scope)).mapReference (Reference.rename ρ) := by
    cases hbody : tag.body <;> simp [Tag.mapReference, hbody, h.linkReference_eq]
  have hstep (tags : Tags) (name : String) :
      (tags.rename ρ).modify name (·.map (Tag.mapReference (linkReference t scope))) =
        (tags.modify name (·.map (Tag.mapReference (linkReference s scope)))).rename ρ := by
    refine congrArg Tags.mk (NameMap.map_modify (fun list => ?_) tags.byName name).symm
    simp only [List.map_map, Function.comp_def, htag]
  simp only [linkTags, linkedTags, List.foldl_cons, List.foldl_nil, hstep]

theorem linkElement_eq (ref : ElementRef) (item : Item) (old f : File) :
    linkElement t (ref.rename ρ) (item.rename ρ) (old.rename ρ) (f.rename ρ) =
      (linkElement s ref item old f).rename ρ := by
  have hbases : ((old.rename ρ).bases ref.kind ref.fqsen).map (linkReference t (s.scopeOf ref)) =
      ((old.bases ref.kind ref.fqsen).map (linkReference s (s.scopeOf ref))).map
        (Reference.rename ρ) := by
    rw [File.bases_rename, Bases.map_map, Bases.map_map]
    simp only [h.linkReference_eq]
  rw [linkElement, linkElement, h.scopeOf_eq]
  refine (congrArg (File.modifyInfo · ref.kind ref.fqsen _) ?_).trans
    (File.modifyInfo_rename (fun i => ?_) _ ref.kind ref.fqsen)
  · exact (congrArg _ hbases).trans (f.setBases_rename ref.kind ref.fqsen _)
  · exact congrArg (fun tags => { i with tags := tags })
      (h.linkTags_eq (s.scopeOf ref) item.info.tags)

theorem linked : (linked s).Renamed ρ (linked t) := by
  rw [linked_eq s, linked_eq t]
  refine { h with file? := fun id => ?_ }
  have hstart (f : File) :
      { f.rename ρ with tags := linkTags t (.ofFile (f.rename ρ)) (f.rename ρ).tags } =
        File.rename ρ { f with tags := linkTags s (.ofFile f) f.tags } :=
    congrArg (fun tags => { f.rename ρ with tags := tags }) (h.linkTags_eq (.ofFile f) f.tags)
  have hfold (f : File) (entries : List (ElementRef × Item)) (g : File) :
      (entries.map fun e => (e.1.rename ρ, e.2.rename ρ)).foldl
        (fun g e => linkElement t e.1 e.2 (f.rename ρ) g) (g.rename ρ) =
      (entries.foldl (fun g e => linkElement s e.1 e.2 f g) g).rename ρ := by
    induction entries generalizing g with
    | nil => rfl
    | cons e rest ih => rw [List.map_cons, List.foldl_cons, h.linkElement_eq, ih, List.foldl_cons]
  have hfile := h.file? id
  change (Compile.linked t).file? (ρ.file id) = ((Compile.linked s).file? id).map (File.rename ρ)
  cases hf : s.file? id with
  | none =>
    have hnone (u : ApiSet) (id : Nat) (hu : u.file? id = none) :
        (Compile.linked u).file? id = none := by
      rw [← Option.not_isSome_iff_eq_none, (retouch_linked u).isSome_file?, hu]
      simp
    rw [hf] at hfile
    rw [hnone s id hf, hnone t _ hfile]
    rfl
  | some f =>
    rw [hf] at hfile
    rw [file?_linked hf, file?_linked hfile, h.filter_present_eq, hstart, hfold]
    rfl

end ApiSet.Renamed

/-! ### Trees -/

namespace ApiSet

theorem map_numbered {α : Type} (s : ApiSet) (k : File → α) :
    s.numbered.map (fun e => k e.2) = s.files.map k := by
  have hfst : s.numbered.map (fun e => k e.2) = (s.files.zipIdx.map Prod.fst).map k := by
    rw [numbered, List.map_map, List.map_map]
    rfl
  rw [hfst, List.zipIdx_map_fst]

theorem index_addEntry (s : ApiSet) (name key : String) (target : Target) (other : String) :
    (s.addEntry name key target).index other =
      if name = other then (s.index name).insert key target else s.index other := by
  rw [addEntry, index_setIndex]

/-- Entries of different indexes or under different keys can be written in any order. -/
theorem addEntry_comm (s : ApiSet) {name name' key key' : String} (h : name ≠ name' ∨ key ≠ key')
    (a b : Target) :
    (s.addEntry name key a).addEntry name' key' b =
      (s.addEntry name' key' b).addEntry name key a := by
  have hentry (s : ApiSet) (name key : String) (a : Target) :
      (s.addEntry name key a).indexes = s.indexes.insert name ((s.index name).insert key a) := rfl
  have hindexes : ((s.addEntry name key a).addEntry name' key' b).indexes =
      ((s.addEntry name' key' b).addEntry name key a).indexes := by
    refine NameMap.ext_get? fun other => ?_
    simp only [hentry, index_addEntry, NameMap.get?_insert]
    by_cases hname : name = name'
    · subst hname
      have hkey : key ≠ key' := h.resolve_left fun hne => hne rfl
      by_cases hother : name = other <;> simp [hother, NameMap.insert_comm _ hkey]
    · by_cases hother : name' = other
      · subst hother
        simp [hname]
      · simp [hother, Ne.symm hname]
  exact congrArg (fun indexes => { s with indexes := indexes }) hindexes

end ApiSet

namespace ApiSet.Renamed

open Compile

variable {ρ : Renaming} {s t : ApiSet}

/-- Nodes that correspond can be entered in any order, for their names differ. -/
theorem enterNodes (h : s.Renamed ρ t) {ν : Renaming} {tree tree' : Taxonomy}
    (htree : tree.Renamed ν tree') (hbranched : tree.Branched) {mark name : String}
    (hname : Index.elements ≠ name) {target : Nat → Target}
    (htarget : ∀ id, target (ν.node id) = (target id).rename ρ) :
    (enterNodes mark name target tree.nodes s).Renamed ρ
      (enterNodes mark name target tree'.nodes t) := by
  have hperm := htree.perm_nodes hbranched
  have hnames : (tree'.nodes.map fun n => n.fullName.text).Nodup := by
    refine (hperm.map _).nodup_iff.mpr ?_
    rw [List.map_map]
    exact hbranched.nodup_names
  have hfold (nodes : List Node) {s t : ApiSet} (h : s.Renamed ρ t) :
      (Compile.enterNodes mark name target nodes s).Renamed ρ
        (Compile.enterNodes mark name target (nodes.map (Node.rename ν)) t) := by
    induction nodes generalizing s t with
    | nil => exact h
    | cons n rest ih =>
      have hstep := (h.addEntry Index.elements (mark ++ n.fullName.text) (target n.id)).addEntry name
        n.fullName.text (target n.id)
      rw [← htarget] at hstep
      exact ih hstep
  have hsame : Compile.enterNodes mark name target tree'.nodes t =
      Compile.enterNodes mark name target (tree.nodes.map (Node.rename ν)) t := by
    refine hperm.foldl_eq' (fun a ha b hb u => ?_) t
    by_cases heq : a.fullName.text = b.fullName.text
    · rw [List.inj_on_of_nodup_map hnames ha hb heq]
    · have hmarked : mark ++ a.fullName.text ≠ mark ++ b.fullName.text := fun happend =>
        heq ((String.append_right_inj mark).mp happend)
      dsimp only
      rw [addEntry_comm _ (.inl hname.symm) (target a.id) (target b.id),
        addEntry_comm u (.inr hmarked), addEntry_comm _ (.inr heq),
        addEntry_comm _ (.inl hname) (target a.id) (target b.id)]
  rw [hsame]
  exact hfold tree.nodes h

theorem withSpaces (h : s.Renamed ρ t) (hbranched : s.namespaces.Branched) :
    (withSpaces s).Renamed ρ (withSpaces t) := by
  obtain ⟨htree, hgrown⟩ := h.namespaces.attachAll (fun _ _ => rfl) hbranched
    (s.topLevelEntries.map fun ref => (ref, ref.fqsen.enclosing))
  rw [List.foldl_map, List.foldl_map] at htree
  rw [List.foldl_map] at hgrown
  unfold Compile.withSpaces
  rw [h.topLevelEntries_eq, List.foldl_map]
  have hset : ApiSet.Renamed ρ
      { s with namespaces := (s.topLevelEntries.foldl
        (fun t ref => attachAt t ref.fqsen.enclosing ref) s.namespaces) }
      { t with namespaces := (s.topLevelEntries.foldl
        (fun t ref => attachAt t ref.fqsen.enclosing (ref.rename ρ.still)) t.namespaces) } :=
    { h with namespaces := htree }
  exact hset.enterNodes htree hgrown (by decide) fun _ => rfl

end ApiSet.Renamed

namespace Compile

variable {ρ : Renaming}

theorem taggedPackage?_rename (tags : Tags) :
    taggedPackage? (tags.rename ρ) = taggedPackage? tags := by
  have hfirst (name : String) :
      (((tags.rename ρ).get name).head?.map fun t => normalizePackage t.description) =
        (tags.get name).head?.map fun t => normalizePackage t.description := by
    rw [Tags.get_rename, List.head?_map, Option.map_map]
    simp only [Function.comp_def, Tag.description_rename]
  simp only [taggedPackage?, hfirst]

theorem packageOfFile_rename (default : String) (f : File) :
    packageOfFile default (f.rename ρ) = packageOfFile default f := by
  rw [packageOfFile, packageOfFile]
  exact congrArg (fun p => (p.or (recorded? f.package)).getD default) (taggedPackage?_rename f.tags)

theorem packageOfElement_rename (filePackage : String) (i : Info) :
    packageOfElement filePackage (i.rename ρ) = packageOfElement filePackage i := by
  rw [packageOfElement, packageOfElement]
  exact congrArg (fun p => (p.or (recorded? i.package)).getD filePackage)
    (taggedPackage?_rename i.tags)

def setPackage (default : String) (entry : Nat × File) (f : File) : File :=
  { f with package := some (packageOfFile default entry.2) }

/-- Where a file is placed. -/
def placing (default : String) (entry : Nat × File) : Placing :=
  ⟨packageNode (packageOfFile default entry.2), entry.2.path, entry.1⟩

theorem placing_rename (default : String) (e : Nat × File) :
    placing default (ρ.file e.1, e.2.rename ρ) = (placing default e).renumber ρ.file := by
  have hpath : (e.2.rename ρ).path = e.2.path := rfl
  simp only [placing, Placing.renumber, packageOfFile_rename, hpath]

def packageTree (default : String) (s : ApiSet) : Taxonomy :=
  ((elementPackages default s).map fun e => (e.1, packageNode e.2)).foldl
    (fun t e => attachAt t e.2 e.1)
    ((s.numbered.map (placing default)).foldl Taxonomy.place s.packages)

def notePackages (default : String) (s : ApiSet) : ApiSet :=
  s.numbered.foldl (fun s e => s.modifyFile e.1 (setPackage default e)) s

def noteElements (entries : List (ElementRef × String)) (s : ApiSet) : ApiSet :=
  entries.foldl (fun s e => s.modifyFile e.1.file fun f =>
    f.modifyInfo e.1.kind e.1.fqsen fun i => { i with package := some e.2 }) s

/-- Placing files notes their packages and grows the tree. -/
theorem placeFiles_eq (default : String) (entries : List (Nat × File)) (s : ApiSet)
    (tree : Taxonomy) : entries.foldl (placeFile default) { s with packages := tree } =
      { entries.foldl (fun s e => s.modifyFile e.1 (setPackage default e)) s with
        packages := (entries.map (placing default)).foldl Taxonomy.place tree } := by
  induction entries generalizing s tree with
  | nil => rfl
  | cons e rest ih =>
    have hstep : placeFile default { s with packages := tree } e =
        { s.modifyFile e.1 (setPackage default e) with
          packages := tree.place (placing default e) } := by
      simp only [placeFile, ApiSet.modifyFile, Taxonomy.place, placing]
      rfl
    rw [List.foldl_cons, hstep, ih, List.map_cons, List.foldl_cons, List.foldl_cons]

/-- Placing elements notes their packages and grows the tree. -/
theorem placeElements_eq (entries : List (ElementRef × String)) (s : ApiSet) (tree : Taxonomy) :
    entries.foldl placeElement { s with packages := tree } =
      { noteElements entries s with
        packages := (entries.map fun e => (e.1, packageNode e.2)).foldl
          (fun t e => attachAt t e.2 e.1) tree } := by
  induction entries generalizing s tree with
  | nil => rfl
  | cons e rest ih =>
    have hstep : placeElement { s with packages := tree } e =
        { s.modifyFile e.1.file fun f =>
            f.modifyInfo e.1.kind e.1.fqsen fun i => { i with package := some e.2 } with
          packages := attachAt tree (packageNode e.2) e.1 } := by
      simp only [placeElement, ApiSet.modifyInfo, ApiSet.modifyFile]
    rw [List.foldl_cons, hstep, ih, List.map_cons, List.foldl_cons, noteElements, noteElements,
      List.foldl_cons]

theorem withPackages_eq (defaultName : String) (s : ApiSet) :
    withPackages defaultName s =
      enterNodes "@" Index.packages .packageNode (packageTree (defaultPackage defaultName) s).nodes
        { noteElements (elementPackages (defaultPackage defaultName) s)
            (notePackages (defaultPackage defaultName) s) with
          packages := packageTree (defaultPackage defaultName) s } := by
  have hfiles := placeFiles_eq (defaultPackage defaultName) s.numbered s s.packages
  rw [withPackages, hfiles, placeElements_eq]
  rfl

end Compile

namespace ApiSet.Renamed

open Compile

variable {s t : ApiSet}

theorem elementPackages_eq {ρ : Renaming} (h : s.Renamed ρ t) (default : String) :
    elementPackages default t = (elementPackages default s).map fun e => (e.1.rename ρ, e.2) := by
  rw [elementPackages, elementPackages, h.topLevelEntries_eq, List.filterMap_map,
    List.map_filterMap]
  refine List.filterMap_congr fun ref _ => ?_
  have hfile : t.file? (ref.rename ρ).file = _ := h.file? ref.file
  rw [Function.comp_apply, h.item?_eq, hfile]
  cases s.item? ref with
  | none => rfl
  | some item =>
    cases s.file? ref.file with
    | none => rfl
    | some f =>
      have hpackage : packageOfElement (packageOfFile default (f.rename ρ)) (item.rename ρ).info =
          packageOfElement (packageOfFile default f) item.info := by
        rw [packageOfFile_rename]
        exact packageOfElement_rename _ item.info
      simp [hpackage]

theorem notePackages {ρ : Renaming} (h : s.Renamed ρ t) (default : String) :
    (notePackages default s).Renamed ρ (notePackages default t) := by
  have hset (e : Nat × File) (f : File) :
      setPackage default (ρ.file e.1, e.2.rename ρ) (f.rename ρ) =
        (setPackage default e f).rename ρ := by
    rw [setPackage, packageOfFile_rename]
    rfl
  unfold Compile.notePackages
  refine h.foldl_modifyFile (m := fun e => (ρ.file e.1, e.2.rename ρ)) (fun id => ?_) ?_
  rotate_left
  · exact fun e _ f => hset e f
  rw [filter_numbered, filter_numbered, h.file?]
  cases s.file? id <;> simp

theorem noteElements {ρ : Renaming} (h : s.Renamed ρ t) (entries : List (ElementRef × String)) :
    (noteElements entries s).Renamed ρ
      (noteElements (entries.map fun e => (e.1.rename ρ, e.2)) t) := by
  unfold Compile.noteElements
  refine h.foldl_map ?_ ?_ entries
  · exact fun e => rfl
  · intro e f
    refine f.modifyInfo_rename (fun i => ?_) e.1.kind e.1.fqsen
    rfl

theorem setPackages {ρ : Renaming} (h : s.Renamed ρ t) {tree tree' : Taxonomy}
    (htree : tree.Renamed ρ tree') :
    ApiSet.Renamed ρ { s with packages := tree } { t with packages := tree' } :=
  { h with packages := htree }

/-- The tree of packages fixes the numbers of its nodes. -/
theorem exists_packageTree {file : Equiv.Perm Nat}
    (h : ∀ node : Equiv.Perm Nat, node 0 = 0 → s.Renamed ⟨file, node⟩ t)
    (hs : s.packages = .fresh .packages) (ht : t.packages = .fresh .packages)
    (hpaths : (s.files.map File.path).Nodup) (default : String) :
    ∃ node : Equiv.Perm Nat, node 0 = 0 ∧
      (packageTree default s).Renamed ⟨file, node⟩ (packageTree default t) ∧
      (packageTree default s).Branched := by
  have hplacings : (t.numbered.map (placing default)).Perm
      ((s.numbered.map (placing default)).map (Placing.renumber file)) := by
    refine ((h (Equiv.refl Nat) rfl).perm_numbered.map _).trans (.of_eq ?_)
    rw [List.map_map, List.map_map]
    exact List.map_congr_left fun e _ => placing_rename default e
  have hdistinct : ((s.numbered.map (placing default)).map Placing.path).Nodup := by
    rw [List.map_map]
    exact (s.map_numbered File.path) ▸ hpaths
  obtain ⟨node, hbeyond, hplaced⟩ :=
    Taxonomy.exists_renamed_of_perm .packages hplacings hdistinct
  obtain ⟨paths, htree, -⟩ := (Taxonomy.branches_fresh .packages).placeAll
    (s.numbered.map (placing default))
  obtain ⟨hgrown, hbranched⟩ := hplaced.attachAll hbeyond ⟨paths, _, htree⟩
    ((elementPackages default s).map fun e => (e.1, packageNode e.2))
  have hattach (entries : List (ElementRef × String)) (tree : Taxonomy) :
      ((entries.map fun e => (e.1.rename ⟨file, node⟩, e.2)).map fun e =>
          (e.1, packageNode e.2)).foldl (fun t e => attachAt t e.2 e.1) tree =
        (entries.map fun e => (e.1, packageNode e.2)).foldl
          (fun t e => attachAt t e.2 (e.1.rename ⟨file, node⟩)) tree := by
    rw [List.foldl_map, List.foldl_map, List.foldl_map]
  rw [packageTree, packageTree, hs, ht, (h node hplaced.root).elementPackages_eq, hattach]
  exact ⟨node, hplaced.root, hgrown, hbranched⟩

theorem exists_withPackages {file : Equiv.Perm Nat}
    (h : ∀ node : Equiv.Perm Nat, node 0 = 0 → s.Renamed ⟨file, node⟩ t)
    (hs : s.packages = .fresh .packages) (ht : t.packages = .fresh .packages)
    (hpaths : (s.files.map File.path).Nodup) (defaultName : String) :
    ∃ node : Equiv.Perm Nat,
      (withPackages defaultName s).Renamed ⟨file, node⟩ (withPackages defaultName t) := by
  obtain ⟨node, hroot, htree, hbranched⟩ :=
    exists_packageTree h hs ht hpaths (defaultPackage defaultName)
  have hstart := h node hroot
  have hnoted := (hstart.notePackages (defaultPackage defaultName)).noteElements
    (elementPackages (defaultPackage defaultName) s)
  rw [← hstart.elementPackages_eq] at hnoted
  refine ⟨node, ?_⟩
  rw [withPackages_eq, withPackages_eq]
  have hset := hnoted.setPackages htree
  exact hset.enterNodes htree hbranched (by decide) fun _ => rfl

end ApiSet.Renamed

end ApiDoc
