import ApiDoc.Proofs.Steps
import ApiDoc.Proofs.Trees

/-!
# Indexes and trees

The indexes are made from the listing of all elements, and both trees from the indexes of elements
that are no members. So every entry of these indexes is the address of an element of its kind under
its own name, and each tree holds exactly these entries (`ApiSet.Filed`).
-/

namespace ApiDoc

namespace ApiSet

/-! ### Entries -/

theorem index_setIndex (s : ApiSet) (name : String) (i : Index) (other : String) :
    (s.setIndex name i).index other = if name = other then i else s.index other := by
  rw [index, setIndex, NameMap.get?_insert]
  split <;> rfl

theorem lookup_eq (s : ApiSet) (key : String) :
    s.lookup key = (s.index Index.elements).get? key := by
  rw [lookup, lookupIn, index]
  cases s.indexes.get? Index.elements <;> rfl

/-- Every entry of an index of a kind is the address of an element of that kind under its name. -/
def KindIndexed (s : ApiSet) : Prop :=
  ∀ k ∈ Index.byKind, ∀ key target, (s.index k.1).get? key = some target →
    ∃ ref, target = .element ref ∧ ref.kind = k.2 ∧ ref.fqsen.text = key

/-- What is attached to a tree are the entries of the indexes of the kinds. -/
def Filed (s : ApiSet) (t : Taxonomy) : Prop :=
  (t.elements.map Target.element).Perm (Index.byKind.flatMap fun k => (s.index k.1).values)

namespace KindIndexed

variable {s : ApiSet} (hs : s.KindIndexed)
include hs

theorem map_topLevelEntries :
    s.topLevelEntries.map Target.element = Index.byKind.flatMap fun k => (s.index k.1).values := by
  rw [topLevelEntries, List.map_flatMap, List.flatMap, List.flatMap]
  refine congrArg List.flatten (List.map_congr_left fun k hk => ?_)
  have hvalues (targets : List Target) (h : ∀ t ∈ targets, ∃ ref, t = .element ref) :
      (targets.filterMap Target.element?).map Target.element = targets := by
    induction targets with
    | nil => rfl
    | cons t rest ih =>
      obtain ⟨ref, rfl⟩ := h t List.mem_cons_self
      simpa [Target.element?] using ih fun u hu => h u (List.mem_cons_of_mem _ hu)
  refine hvalues _ fun t ht => ?_
  obtain ⟨key, hkey⟩ := NameMap.mem_values_iff.mp ht
  obtain ⟨ref, href, -⟩ := hs k hk key t hkey
  exact ⟨ref, href⟩

theorem exists_of_mem_topLevelEntries {ref : ElementRef} (h : ref ∈ s.topLevelEntries) :
    ∃ k ∈ Index.byKind, ref.kind = k.2 ∧ (s.index k.1).get? ref.fqsen.text = some (.element ref) := by
  obtain ⟨k, hk, hmem⟩ := List.mem_flatMap.mp h
  obtain ⟨target, htarget, helement⟩ := List.mem_filterMap.mp hmem
  obtain ⟨key, hkey⟩ := NameMap.mem_values_iff.mp htarget
  obtain ⟨found, rfl, hkind, hname⟩ := hs k hk key target hkey
  obtain rfl : found = ref := by simpa [Target.element?] using helement
  exact ⟨k, hk, hkind, hname ▸ hkey⟩

theorem attachable {ref : ElementRef} (h : ref ∈ s.topLevelEntries) :
    Node.Attachable ref.kind := by
  obtain ⟨k, hk, hkind, -⟩ := hs.exists_of_mem_topLevelEntries h
  exact List.mem_map.mpr ⟨k, hk, hkind.symm⟩

theorem distinct : Compile.Distinct s.topLevelEntries := by
  rw [Compile.Distinct, topLevelEntries, List.pairwise_flatMap]
  have hkind {k : String × ElementKind} (hk : k ∈ Index.byKind) {ref : ElementRef}
      (h : ref ∈ (s.index k.1).values.filterMap Target.element?) : ref.kind = k.2 := by
    obtain ⟨target, htarget, helement⟩ := List.mem_filterMap.mp h
    obtain ⟨key, hkey⟩ := NameMap.mem_values_iff.mp htarget
    obtain ⟨found, rfl, hfound, -⟩ := hs k hk key target hkey
    obtain rfl : found = ref := by simpa [Target.element?] using helement
    exact hfound
  constructor
  · intro k hk
    have hnodup := NameMap.nodup_values (m := s.index k.1)
      (fun t => (t.element?.map fun ref => ref.fqsen.text).getD "") fun key target h => by
        obtain ⟨ref, rfl, -, hname⟩ := hs k hk key target h
        exact hname
    rw [List.Nodup, List.pairwise_map] at hnodup
    refine List.pairwise_filterMap.mpr (hnodup.imp fun {a b} hne x hx y hy _ => ?_)
    simpa [hx, hy] using hne
  · have hbyKind : Index.byKind.Pairwise fun a b => a.2 ≠ b.2 := by decide
    refine hbyKind.imp_of_mem fun {a b} ha hb hne x hx y hy heq => ?_
    rw [hkind ha hx, hkind hb hy] at heq
    exact absurd heq hne

end KindIndexed

end ApiSet

namespace Compile

/-! ### The indexes of elements -/

theorem mem_of_get?_indexOf {refs : List ElementRef} {key : String} {target : Target}
    (h : (indexOf refs).get? key = some target) :
    ∃ ref ∈ refs, target = .element ref ∧ ref.fqsen.text = key := by
  have hfold (refs : List ElementRef) (i : Index)
      (h : (refs.foldl (fun i ref => i.insert ref.fqsen.text (.element ref)) i).get? key =
        some target) :
      i.get? key = some target ∨ ∃ ref ∈ refs, target = .element ref ∧ ref.fqsen.text = key := by
    induction refs generalizing i with
    | nil => exact .inl h
    | cons ref rest ih =>
      rcases ih _ h with h | ⟨found, hfound, heq⟩
      · rw [NameMap.get?_insert] at h
        split at h
        · next hkey =>
          cases h
          exact .inr ⟨ref, List.mem_cons_self, rfl, hkey⟩
        · exact .inl h
      · exact .inr ⟨found, List.mem_cons_of_mem _ hfound, heq⟩
  rcases hfold refs .empty h with h | h
  · simp at h
  · exact h

theorem index_withIndexes_elements (s : ApiSet) :
    (withIndexes s).index Index.elements = indexOf s.allElements := by
  simp [withIndexes, Index.byKind, ApiSet.index_setIndex, Index.elements]

theorem index_withIndexes {k : String × ElementKind} (hk : k ∈ Index.byKind) (s : ApiSet) :
    (withIndexes s).index k.1 = indexOf (ofKind k.2 s.allElements) := by
  simp only [Index.byKind, List.mem_cons, List.not_mem_nil, or_false] at hk
  rcases hk with rfl | rfl | rfl | rfl | rfl
  all_goals simp [withIndexes, Index.byKind, ApiSet.index_setIndex]

theorem kindIndexed_withIndexes (s : ApiSet) : (withIndexes s).KindIndexed := by
  intro k hk key target h
  rw [index_withIndexes hk] at h
  obtain ⟨ref, href, rfl, hname⟩ := mem_of_get?_indexOf h
  refine ⟨ref, rfl, ?_, hname⟩
  have := (List.mem_filter.mp href).2
  simpa using And.left (by simpa using this)

/-- The entries of the index of elements are addresses from the listing, under their names. -/
theorem exists_of_lookup_withIndexes {s : ApiSet} {key : String} {target : Target}
    (h : (withIndexes s).lookup key = some target) :
    ∃ ref ∈ s.allElements, target = .element ref ∧ ref.fqsen.text = key := by
  rw [ApiSet.lookup_eq, index_withIndexes_elements] at h
  exact mem_of_get?_indexOf h

/-! ### Entries of nodes -/

theorem index_addEntry_of_ne (s : ApiSet) {name other : String} (h : name ≠ other) (key : String)
    (t : Target) : (s.addEntry name key t).index other = s.index other := by
  rw [ApiSet.addEntry, ApiSet.index_setIndex, if_neg h]

theorem lookup_addEntry_elements (s : ApiSet) (key : String) (t : Target) (other : String) :
    (s.addEntry Index.elements key t).lookup other =
      if key = other then some t else s.lookup other := by
  rw [ApiSet.lookup_eq, ApiSet.addEntry, ApiSet.index_setIndex, if_pos rfl, NameMap.get?_insert,
    ApiSet.lookup_eq]

section EnterNodes

variable (mark name : String) (target : Nat → Target) (nodes : List Node)

theorem index_enterNodes {other : String} (he : Index.elements ≠ other) (hn : name ≠ other)
    (s : ApiSet) : (enterNodes mark name target nodes s).index other = s.index other := by
  rw [enterNodes]
  induction nodes generalizing s with
  | nil => rfl
  | cons n rest ih =>
    refine (ih _).trans ?_
    rw [index_addEntry_of_ne _ hn, index_addEntry_of_ne _ he]

theorem trees_enterNodes (s : ApiSet) :
    (enterNodes mark name target nodes s).namespaces = s.namespaces ∧
      (enterNodes mark name target nodes s).packages = s.packages := by
  rw [enterNodes]
  induction nodes generalizing s with
  | nil => exact ⟨rfl, rfl⟩
  | cons n rest ih => exact ih _

theorem lookup_enterNode (hn : name ≠ Index.elements) (s : ApiSet) (n : Node) (key : String) :
    ((s.addEntry Index.elements (mark ++ n.fullName.text) (target n.id)).addEntry name
        n.fullName.text (target n.id)).lookup key =
      if mark ++ n.fullName.text = key then some (target n.id) else s.lookup key := by
  rw [← lookup_addEntry_elements, ApiSet.lookup_eq, index_addEntry_of_ne _ hn, ApiSet.lookup_eq]

/-- Among all elements, entering nodes changes only keys behind the mark. -/
theorem lookup_enterNodes (hn : name ≠ Index.elements) (s : ApiSet) (key : String) :
    (enterNodes mark name target nodes s).lookup key = s.lookup key ∨
      ∃ n ∈ nodes, key = mark ++ n.fullName.text ∧
        (enterNodes mark name target nodes s).lookup key = some (target n.id) := by
  rw [enterNodes]
  induction nodes generalizing s with
  | nil => exact .inl rfl
  | cons n rest ih =>
    rcases ih _ with h | ⟨m, hm, hkey, hlookup⟩
    · rw [List.foldl_cons, h, lookup_enterNode _ _ _ hn]
      split
      · next heq => exact .inr ⟨n, List.mem_cons_self, heq.symm, rfl⟩
      · exact .inl rfl
    · exact .inr ⟨m, List.mem_cons_of_mem _ hm, hkey, hlookup⟩

/-- Every node is found behind the mark, or another one of its name is. -/
theorem isSome_lookup_enterNodes (hn : name ≠ Index.elements) (s : ApiSet) {n : Node}
    (h : n ∈ nodes) :
    ((enterNodes mark name target nodes s).lookup (mark ++ n.fullName.text)).isSome := by
  induction nodes generalizing s with
  | nil => exact absurd h List.not_mem_nil
  | cons m rest ih =>
    let entered := (s.addEntry Index.elements (mark ++ m.fullName.text) (target m.id)).addEntry name
      m.fullName.text (target m.id)
    have hstep : enterNodes mark name target (m :: rest) s =
        enterNodes mark name target rest entered := rfl
    rw [hstep]
    rcases List.mem_cons.mp h with rfl | hrest
    · rcases lookup_enterNodes mark name target rest hn entered (mark ++ n.fullName.text) with
        hsame | ⟨other, -, -, hnode⟩
      · rw [hsame, lookup_enterNode _ _ _ hn, if_pos rfl, Option.isSome_some]
      · rw [hnode, Option.isSome_some]
    · exact ih entered hrest

end EnterNodes

/-! ### The trees -/

/-- The index of a kind is none of the two that nodes are entered in. -/
theorem index_enterNodes_byKind {k : String × ElementKind} (hk : k ∈ Index.byKind) {name : String}
    (hn : name = Index.namespaces ∨ name = Index.packages) (mark : String) (target : Nat → Target)
    (nodes : List Node) (s : ApiSet) :
    (enterNodes mark name target nodes s).index k.1 = s.index k.1 := by
  simp only [Index.byKind, List.mem_cons, List.not_mem_nil, or_false] at hk
  refine index_enterNodes mark name target nodes ?_ ?_ s
  · rcases hk with rfl | rfl | rfl | rfl | rfl <;> decide
  · rcases hn with rfl | rfl <;> rcases hk with rfl | rfl | rfl | rfl | rfl <;> decide

theorem index_withSpaces {k : String × ElementKind} (hk : k ∈ Index.byKind) (s : ApiSet) :
    (withSpaces s).index k.1 = s.index k.1 :=
  index_enterNodes_byKind hk (.inl rfl) ..

/-- The same indexes of the kinds. -/
theorem filed_congr {s t : ApiSet} (h : ∀ k ∈ Index.byKind, t.index k.1 = s.index k.1)
    {tree : Taxonomy} (hs : s.Filed tree) : t.Filed tree := by
  rw [ApiSet.Filed, List.flatMap] at hs ⊢
  rwa [List.map_congr_left fun k hk => congrArg NameMap.values (h k hk)]

theorem kindIndexed_congr {s t : ApiSet} (h : ∀ k ∈ Index.byKind, t.index k.1 = s.index k.1)
    (hs : s.KindIndexed) : t.KindIndexed := by
  intro k hk key target ht
  exact hs k hk key target (h k hk ▸ ht)

/-- A tree in which the entries of the indexes are attached to nodes of any names. -/
theorem filed_attachAll {s : ApiSet} (hs : s.KindIndexed) {t : Taxonomy} (ht : t.WellFormed)
    (hempty : t.elements = []) {named : List (ElementRef × Fqsen)}
    (hnamed : named.map Prod.fst = s.topLevelEntries) :
    s.Filed (named.foldl (fun t e => attachAt t e.2 e.1) t) := by
  have hmem {e : ElementRef × Fqsen} (he : e ∈ named) : e.1 ∈ s.topLevelEntries := by
    rw [← hnamed]
    exact List.mem_map_of_mem he
  have hperm := perm_elements_attachAll ht (fun e he => hs.attachable (hmem he))
    (hnamed ▸ hs.distinct) (by simp [hempty])
  rw [hempty, List.append_nil, hnamed] at hperm
  rw [ApiSet.Filed, ← hs.map_topLevelEntries]
  exact hperm.map Target.element

theorem filed_withSpaces {s : ApiSet} (hs : s.KindIndexed)
    (hfresh : s.namespaces = .fresh .namespaces) :
    (withSpaces s).Filed (withSpaces s).namespaces := by
  refine filed_congr (fun k hk => index_withSpaces hk s) ?_
  have hfold : (withSpaces s).namespaces =
      (s.topLevelEntries.map fun ref => (ref, ref.fqsen.enclosing)).foldl
        (fun t e => attachAt t e.2 e.1) s.namespaces := by
    rw [List.foldl_map]
    exact (trees_enterNodes "~" Index.namespaces .spaceNode _ _).1
  rw [hfold, hfresh]
  refine filed_attachAll hs (Taxonomy.wellFormed_fresh _) (Taxonomy.elements_fresh _) ?_
  rw [List.map_map]
  exact List.map_id _

/-! #### Packages -/

theorem packages_placeFile (default : String) (s : ApiSet) (entry : Nat × File) :
    (placeFile default s entry).packages =
      ((s.packages.ensure (packageNode (packageOfFile default entry.2))).tree.modifyNode
        (s.packages.ensure (packageNode (packageOfFile default entry.2))).id fun n =>
          { n with files := n.files.insert entry.2.path entry.1 }) := by
  simp only [placeFile, ApiSet.modifyFile]

theorem packages_placeElement (s : ApiSet) (entry : ElementRef × String) :
    (placeElement s entry).packages = attachAt s.packages (packageNode entry.2) entry.1 := by
  simp only [placeElement, ApiSet.modifyInfo, ApiSet.modifyFile]

/-- Placing files attaches no element. -/
theorem wellFormed_placeFiles (default : String) (entries : List (Nat × File)) {s : ApiSet}
    (hs : s.packages.WellFormed) (hempty : s.packages.elements = []) :
    (entries.foldl (placeFile default) s).packages.WellFormed ∧
      (entries.foldl (placeFile default) s).packages.elements = [] := by
  induction entries generalizing s with
  | nil => exact ⟨hs, hempty⟩
  | cons entry rest ih =>
    obtain ⟨hwell, -, heq⟩ :=
      Taxonomy.wellFormed_ensure hs (packageNode (packageOfFile default entry.2))
    rw [List.foldl_cons]
    refine ih ?_ ?_
    · rw [packages_placeFile]
      exact hwell.modifyNode _ (fun n hn => hn) fun n segment child h => .inl h
    · rw [packages_placeFile, Taxonomy.elements_modifyNode_of_eq, heq, hempty]
      exact fun _ => rfl

theorem packages_placeElements (elements : List (ElementRef × String)) (s : ApiSet) :
    (elements.foldl placeElement s).packages =
      (elements.map fun e => (e.1, packageNode e.2)).foldl (fun t e => attachAt t e.2 e.1)
        s.packages := by
  induction elements generalizing s with
  | nil => rfl
  | cons e rest ih =>
    rw [List.foldl_cons, ih, packages_placeElement, List.map_cons, List.foldl_cons]

theorem frame_placed (default : String) (entries : List (Nat × File))
    (elements : List (ElementRef × String)) (s : ApiSet) :
    (elements.foldl placeElement (entries.foldl (placeFile default) s)).indexes = s.indexes ∧
      (elements.foldl placeElement (entries.foldl (placeFile default) s)).namespaces =
        s.namespaces := by
  have hfiles : (entries.foldl (placeFile default) s).indexes = s.indexes ∧
      (entries.foldl (placeFile default) s).namespaces = s.namespaces := by
    induction entries generalizing s with
    | nil => exact ⟨rfl, rfl⟩
    | cons entry rest ih => exact ih _
  have helements (u : ApiSet) : (elements.foldl placeElement u).indexes = u.indexes ∧
      (elements.foldl placeElement u).namespaces = u.namespaces := by
    induction elements generalizing u with
    | nil => exact ⟨rfl, rfl⟩
    | cons entry rest ih => exact ih _
  obtain ⟨hindexes, hspaces⟩ := helements (entries.foldl (placeFile default) s)
  exact ⟨hindexes.trans hfiles.1, hspaces.trans hfiles.2⟩

/-- Every element of the indexes has a package. -/
theorem map_elementPackages {s : ApiSet} (h : ∀ ref ∈ s.topLevelEntries, (s.item? ref).isSome)
    (default : String) : (elementPackages default s).map Prod.fst = s.topLevelEntries := by
  rw [elementPackages, List.map_filterMap]
  have hsome (refs : List ElementRef) (g : ElementRef → Option ElementRef)
      (hg : ∀ ref ∈ refs, g ref = some ref) : refs.filterMap g = refs := by
    induction refs with
    | nil => rfl
    | cons ref rest ih =>
      rw [List.filterMap_cons, hg ref List.mem_cons_self]
      exact congrArg (ref :: ·) (ih fun r hr => hg r (List.mem_cons_of_mem _ hr))
  refine hsome _ _ fun ref href => ?_
  obtain ⟨item, hitem⟩ := Option.isSome_iff_exists.mp (h ref href)
  obtain ⟨f, hf, -⟩ := Option.bind_eq_some_iff.mp hitem
  simp [hitem, hf]

theorem index_withPackages {k : String × ElementKind} (hk : k ∈ Index.byKind) (defaultName : String)
    (s : ApiSet) : (withPackages defaultName s).index k.1 = s.index k.1 := by
  unfold withPackages
  rw [index_enterNodes_byKind hk (.inr rfl), ApiSet.index, (frame_placed _ _ _ s).1, ApiSet.index]

theorem namespaces_withPackages (defaultName : String) (s : ApiSet) :
    (withPackages defaultName s).namespaces = s.namespaces := by
  unfold withPackages
  rw [(trees_enterNodes ..).1, (frame_placed _ _ _ s).2]

theorem filed_withPackages {s : ApiSet} (hs : s.KindIndexed)
    (hfresh : s.packages = .fresh .packages)
    (hitems : ∀ ref ∈ s.topLevelEntries, (s.item? ref).isSome) (defaultName : String) :
    (withPackages defaultName s).Filed (withPackages defaultName s).packages := by
  refine filed_congr (fun k hk => index_withPackages hk defaultName s) ?_
  obtain ⟨hwell, hempty⟩ := wellFormed_placeFiles (defaultPackage defaultName) s.numbered
    (hfresh ▸ Taxonomy.wellFormed_fresh .packages) (hfresh ▸ Taxonomy.elements_fresh .packages)
  unfold withPackages
  rw [(trees_enterNodes ..).2, packages_placeElements]
  refine filed_attachAll hs hwell hempty ?_
  rw [List.map_map]
  exact map_elementPackages hitems _

/-- Both trees, as the steps before the last one leave them. -/
theorem filed_trees {s : ApiSet} (hs : s.KindIndexed) (hspaces : s.namespaces = .fresh .namespaces)
    (hpackages : s.packages = .fresh .packages)
    (hitems : ∀ ref ∈ s.topLevelEntries, (s.item? ref).isSome) (defaultName : String) :
    (withPackages defaultName (withSpaces s)).Filed
        (withPackages defaultName (withSpaces s)).namespaces ∧
      (withPackages defaultName (withSpaces s)).Filed
        (withPackages defaultName (withSpaces s)).packages := by
  have hindex (k : String × ElementKind) (hk : k ∈ Index.byKind) := index_withSpaces hk s
  have hindexed := kindIndexed_congr hindex hs
  constructor
  · rw [namespaces_withPackages]
    exact filed_congr (fun k hk => index_withPackages hk defaultName _)
      (filed_withSpaces hs hspaces)
  · refine filed_withPackages hindexed ?_ (fun ref href => ?_) defaultName
    · exact (trees_enterNodes "~" Index.namespaces .spaceNode _ _).2.trans hpackages
    · obtain ⟨k, hk, hkind, hget⟩ := hindexed.exists_of_mem_topLevelEntries href
      have hfiles : s.Retouch (fun _ => ()) (withSpaces s) := .of_files_eq (files_withSpaces s)
      rw [hfiles.isSome_item?]
      refine hitems ref (List.mem_flatMap.mpr ⟨k, hk, List.mem_filterMap.mpr ⟨.element ref, ?_, rfl⟩⟩)
      exact NameMap.mem_values_iff.mpr ⟨_, hindex k hk ▸ hget⟩

/-- No entry of the indexes of the kinds is reached through an owner. -/
theorem throughOwner_of_mem_topLevelEntries {s : ApiSet} {ref : ElementRef}
    (h : ref ∈ (withIndexes s).topLevelEntries) :
    File.throughOwner ref.kind ref.fqsen = false := by
  obtain ⟨k, hk, hkind, hget⟩ := (kindIndexed_withIndexes s).exists_of_mem_topLevelEntries h
  rw [index_withIndexes hk] at hget
  obtain ⟨found, hfound, heq, -⟩ := mem_of_get?_indexOf hget
  obtain rfl : ref = found := by simpa using heq
  have hmember : ref.fqsen.isMember = false := by simpa [hkind] using (List.mem_filter.mp hfound).2
  rw [hkind]
  simp only [Index.byKind, List.mem_cons, List.not_mem_nil, or_false] at hk
  rcases hk with rfl | rfl | rfl | rfl | rfl
  all_goals first | rfl | exact hmember

/-- The entries of the indexes of the kinds lead to elements, in a keyed set. -/
theorem isSome_of_mem_topLevelEntries {s : ApiSet} (hs : s.Keyed) {ref : ElementRef}
    (h : ref ∈ (withIndexes s).topLevelEntries) : (s.item? ref).isSome := by
  have hthrough := throughOwner_of_mem_topLevelEntries h
  obtain ⟨k, hk, -, hget⟩ := (kindIndexed_withIndexes s).exists_of_mem_topLevelEntries h
  rw [index_withIndexes hk] at hget
  obtain ⟨found, hfound, heq, -⟩ := mem_of_get?_indexOf hget
  obtain rfl : ref = found := by simpa using heq
  obtain ⟨f, hf, hdeclared⟩ := ApiSet.mem_allElements_iff.mp (List.mem_filter.mp hfound).1
  obtain ⟨p, item, hat, -, hitemKind, hitemName⟩ := File.exists_of_mem_declared hdeclared
  rw [ApiSet.item?, hf, Option.bind_some, File.item?_eq, File.spotOf_of_not_throughOwner f hthrough]
  have hnames := hs ref.file f hf p item hat
  cases p with
  | top kind key =>
    obtain ⟨hk, hkey⟩ := hnames
    rw [Option.bind_some, ← hitemName, hkey, ← hitemKind, hk, hat]
    rfl
  | member owner ownerKey kind key =>
    obtain ⟨hk, hthroughItem, -⟩ := hnames
    rw [← hk, hitemKind, hitemName] at hthroughItem
    simp [hthrough] at hthroughItem

end Compile

end ApiDoc
