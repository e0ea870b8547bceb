import Mathlib.Data.List.Nodup
import Mathlib.Logic.Equiv.Basic
import ApiDoc.Proofs.Recasting
import ApiDoc.Proofs.Steps

/-!
# Renaming files and packages

A `Renaming` gives new numbers to the files of a set and to the nodes of its package tree. Two sets
are renamings of each other if they hold the same under the numbers that correspond: the same files
but for the addresses in them, the same indexes, the same trees and the same tables. In sets that are
renamings of each other a name is resolved alike, an address leads to the same element, and changes
made file by file can be matched.
-/

namespace ApiDoc

/-- New numbers for files and for the nodes of the package tree. -/
structure Renaming where
  file : Equiv.Perm Nat
  node : Equiv.Perm Nat

/-- The renaming that leaves the nodes of trees alone. -/
def Renaming.still (ρ : Renaming) : Renaming := { ρ with node := Equiv.refl Nat }

/-! ### What is renamed -/

section Parts

variable (ρ : Renaming)

def ElementRef.rename (ref : ElementRef) : ElementRef := { ref with file := ρ.file ref.file }

def Target.rename : Target → Target
  | .file id => .file (ρ.file id)
  | .element ref => .element (ref.rename ρ)
  | .spaceNode id => .spaceNode id
  | .packageNode id => .packageNode (ρ.node id)

def Reference.rename (r : Reference) : Reference :=
  { r with resolved := r.resolved.map (Target.rename ρ) }

def Tags.rename (tags : Tags) : Tags := tags.map (Tag.mapReference (Reference.rename ρ))

def Info.rename (i : Info) : Info := { i with tags := i.tags.rename ρ }

/-- A renaming recasts the references of tags and bases. -/
def Renaming.recast : Recast where
  info := Info.rename ρ
  keepsName _ := rfl
  base := Reference.rename ρ
  tags := Tags.rename ρ

def Item.rename (item : Item) : Item := item.mapInfo (Info.rename ρ)

def File.rename (f : File) : File := f.recast ρ.recast

def Index.rename (i : Index) : Index := i.map (Target.rename ρ)

def Node.rename (n : Node) : Node :=
  { n with
    id := ρ.node n.id
    parent := n.parent.map ρ.node
    children := n.children.map ρ.node
    classes := n.classes.map (ElementRef.rename ρ)
    interfaces := n.interfaces.map (ElementRef.rename ρ)
    traits := n.traits.map (ElementRef.rename ρ)
    functions := n.functions.map (ElementRef.rename ρ)
    constants := n.constants.map (ElementRef.rename ρ)
    files := n.files.map ρ.file }

end Parts

/-- Two trees hold the same under corresponding numbers, and have the same root. -/
structure Taxonomy.Renamed (ρ : Renaming) (t u : Taxonomy) : Prop where
  kind_eq : u.kind = t.kind
  size_eq : u.size = t.size
  root : ρ.node rootId = rootId
  node? : ∀ id, u.node? (ρ.node id) = (t.node? id).map (Node.rename ρ)

/-- Two sets hold the same under corresponding numbers; the nodes of the tree of namespaces have the
same numbers in both. -/
structure ApiSet.Renamed (ρ : Renaming) (s t : ApiSet) : Prop where
  name_eq : t.name = s.name
  file? : ∀ id, t.file? (ρ.file id) = (s.file? id).map (File.rename ρ)
  indexes : t.indexes = s.indexes.map (Index.rename ρ)
  namespaces : s.namespaces.Renamed ρ.still t.namespaces
  packages : s.packages.Renamed ρ t.packages
  tables_eq : t.tables = s.tables

section Parts

variable {ρ : Renaming}

theorem ElementRef.rename_injective : Function.Injective (ElementRef.rename ρ) := by
  rintro ⟨a, kind, fqsen⟩ ⟨b, kind', fqsen'⟩ h
  simpa [rename] using h

theorem Target.rename_injective : Function.Injective (Target.rename ρ) := by
  intro a b h
  cases a <;> cases b <;> simp only [rename, reduceCtorEq] at h
  · exact congrArg Target.file (ρ.file.injective (Target.file.inj h))
  · exact congrArg Target.element (ElementRef.rename_injective (Target.element.inj h))
  · exact h
  · exact congrArg Target.packageNode (ρ.node.injective (Target.packageNode.inj h))

theorem Target.element?_rename (t : Target) :
    (t.rename ρ).element? = t.element?.map (ElementRef.rename ρ) := by
  cases t <;> rfl

theorem Tag.reference?_rename (t : Tag) :
    (t.mapReference (Reference.rename ρ)).reference? = t.reference?.map (Reference.rename ρ) := by
  cases h : t.body <;> simp [mapReference, reference?, h]

theorem Tag.description_rename (t : Tag) :
    (t.mapReference (Reference.rename ρ)).description = t.description := by
  cases h : t.body <;> simp [mapReference, h]

theorem Tags.get_rename (tags : Tags) (name : String) :
    (tags.rename ρ).get name = (tags.get name).map (Tag.mapReference (Reference.rename ρ)) :=
  get_map _ tags name

theorem Tags.contains_rename (tags : Tags) (name : String) :
    (tags.rename ρ).contains name = tags.contains name := by
  rw [contains, contains, get_rename, List.isEmpty_map]

theorem File.item?_rename (f : File) (kind : ElementKind) (fqsen : Fqsen) :
    (f.rename ρ).item? kind fqsen = (f.item? kind fqsen).map (Item.rename ρ) :=
  f.item?_recast ρ.recast kind fqsen

theorem File.declared_rename (f : File) : (f.rename ρ).declared = f.declared :=
  f.declared_recast ρ.recast

theorem File.bases_rename (f : File) (kind : ElementKind) (fqsen : Fqsen) :
    (f.rename ρ).bases kind fqsen = (f.bases kind fqsen).map (Reference.rename ρ) :=
  f.bases_recast ρ.recast kind fqsen

theorem File.modifyInfo_rename {g l : Info → Info} (hg : ∀ i, l (i.rename ρ) = (g i).rename ρ)
    (f : File) (kind : ElementKind) (fqsen : Fqsen) :
    (f.rename ρ).modifyInfo kind fqsen l = (f.modifyInfo kind fqsen g).rename ρ :=
  (f.recast_modifyInfo (fun i => (hg i).symm) kind fqsen).symm

theorem File.setBases_rename (f : File) (kind : ElementKind) (fqsen : Fqsen) (b : Bases) :
    (f.rename ρ).setBases kind fqsen (b.map (Reference.rename ρ)) =
      (f.setBases kind fqsen b).rename ρ :=
  (f.recast_setBases ρ.recast kind fqsen b).symm

theorem File.erase_rename (f : File) (kind : ElementKind) (fqsen : Fqsen) :
    (f.rename ρ).erase kind fqsen = (f.erase kind fqsen).rename ρ :=
  (f.recast_erase ρ.recast kind fqsen).symm

end Parts

/-! ### Numbered files -/

namespace ApiSet

theorem mem_numbered_iff {s : ApiSet} {e : Nat × File} :
    e ∈ s.numbered ↔ s.file? e.1 = some e.2 := by
  rw [numbered, List.mem_map]
  constructor
  · rintro ⟨x, hx, rfl⟩
    exact List.mem_zipIdx_iff_getElem?.mp hx
  · intro h
    exact ⟨(e.2, e.1), List.mem_zipIdx_iff_getElem?.mpr h, rfl⟩

theorem nodup_numbers (s : ApiSet) : (s.numbered.map Prod.fst).Nodup := by
  rw [numbered, List.map_map]
  have hrange : (s.files.zipIdx.map (Prod.fst ∘ fun e => (e.2, e.1))) = List.range s.files.length :=
    (List.zipIdx_map_snd 0 s.files).trans (by rw [List.range_eq_range'])
  exact hrange ▸ List.nodup_range

/-- The file of a number is listed once. -/
theorem filter_numbered (s : ApiSet) (id : Nat) :
    (s.numbered.filter fun e => e.1 = id) = (s.file? id).toList.map fun f => (id, f) := by
  have hnodup : (s.numbered.filter fun e => e.1 = id).Nodup :=
    (s.nodup_numbers.of_map _).filter _
  have hone : ((s.file? id).toList.map fun f => (id, f)).Nodup := by
    cases s.file? id <;> simp
  have hperm : (s.numbered.filter fun e => e.1 = id).Perm
      ((s.file? id).toList.map fun f => (id, f)) := by
    refine (List.perm_ext_iff_of_nodup hnodup hone).mpr fun e => ?_
    rw [List.mem_filter, mem_numbered_iff, List.mem_map, decide_eq_true_eq]
    constructor
    · rintro ⟨h, rfl⟩
      exact ⟨e.2, by simp [h], rfl⟩
    · rintro ⟨f, hf, rfl⟩
      exact ⟨Option.mem_toList.mp hf, rfl⟩
  cases h : s.file? id with
  | none => simpa [h] using hperm
  | some f => simpa [h] using hperm

/-- Of what is listed file by file, one file has its own part. -/
theorem filter_flatMap_numbered {α : Type} (s : ApiSet) (file : α → Nat) (part : Nat × File → List α)
    (hpart : ∀ e, ∀ a ∈ part e, file a = e.1) (id : Nat) :
    ((s.numbered.flatMap part).filter fun a => file a = id) =
      ((s.file? id).map fun f => part (id, f)).getD [] := by
  have hown : (s.numbered.flatMap part).filter (fun a => file a = id) =
      (s.numbered.filter fun e => e.1 = id).flatMap part := by
    induction s.numbered with
    | nil => rfl
    | cons e rest ih =>
      rw [List.flatMap_cons, List.filter_append, ih]
      by_cases he : e.1 = id
      · rw [List.filter_cons_of_pos (by simpa using he), List.flatMap_cons,
          List.filter_eq_self.mpr fun a ha => by simpa [hpart e a ha] using he]
      · rw [List.filter_cons_of_neg (by simpa using he),
          List.filter_eq_nil_iff.mpr fun a ha => by simpa [hpart e a ha] using he, List.nil_append]
  rw [hown, filter_numbered]
  cases s.file? id <;> simp

/-- The addresses of the elements of one file. -/
theorem filter_allElements (s : ApiSet) (id : Nat) :
    (s.allElements.filter fun ref => ref.file = id) =
      ((s.file? id).map fun f => f.declared.map fun e => ⟨id, e.1, e.2⟩).getD [] := by
  refine s.filter_flatMap_numbered ElementRef.file _ (fun e ref href => ?_) id
  obtain ⟨name, -, rfl⟩ := List.mem_map.mp href
  rfl

end ApiSet

/-! ### What looks the same in renamed sets -/

namespace ApiSet.Renamed

variable {ρ : Renaming} {s t : ApiSet} (h : s.Renamed ρ t)
include h

theorem index_eq (name : String) : t.index name = (s.index name).rename ρ := by
  rw [index, index, h.indexes, NameMap.get?_map]
  cases s.indexes.get? name <;> rfl

theorem lookup_eq (key : String) : t.lookup key = (s.lookup key).map (Target.rename ρ) := by
  rw [lookup, lookup, lookupIn, lookupIn, h.indexes, NameMap.get?_map]
  cases s.indexes.get? Index.elements with
  | none => rfl
  | some i => exact NameMap.get?_map _ i key

/-- The addresses in an index, in the order of its keys. -/
theorem entries_eq (name : String) :
    (t.index name).values.filterMap Target.element? =
      ((s.index name).values.filterMap Target.element?).map (ElementRef.rename ρ) := by
  rw [h.index_eq, Index.rename, NameMap.values_map, List.filterMap_map, List.map_filterMap]
  exact List.filterMap_congr fun x _ => Target.element?_rename x

theorem topLevelEntries_eq :
    t.topLevelEntries = s.topLevelEntries.map (ElementRef.rename ρ) := by
  simp only [topLevelEntries, h.entries_eq, List.map_flatMap]

theorem item?_eq (ref : ElementRef) :
    t.item? (ref.rename ρ) = (s.item? ref).map (Item.rename ρ) := by
  have hfile := h.file? ref.file
  rw [item?, item?, ElementRef.rename, hfile]
  cases s.file? ref.file with
  | none => rfl
  | some f => exact f.item?_rename ref.kind ref.fqsen

theorem isSome_file? (id : Nat) : (t.file? (ρ.file id)).isSome = (s.file? id).isSome := by
  rw [h.file?, Option.isSome_map]

theorem resolves_eq (target : Target) : t.resolves (target.rename ρ) = s.resolves target := by
  cases target with
  | file id => exact h.isSome_file? id
  | element ref =>
    rw [Target.rename, resolves, resolves, h.item?_eq, Option.isSome_map]
  | spaceNode id =>
    have hnode : t.namespaces.node? id = _ := h.namespaces.node? id
    rw [Target.rename, resolves, resolves, hnode, Option.isSome_map]
  | packageNode id =>
    rw [Target.rename, resolves, resolves, h.packages.node?, Option.isSome_map]

theorem destination?_eq (target : Target) :
    t.destination? (target.rename ρ) = s.destination? target := by
  cases target with
  | file id =>
    rw [Target.rename, destination?, destination?, h.file?, Option.map_map]
    rfl
  | element ref =>
    rw [Target.rename, destination?, destination?, h.item?_eq, Option.map_map]
    rfl
  | spaceNode id =>
    have hnode : t.namespaces.node? id = _ := h.namespaces.node? id
    rw [Target.rename, destination?, destination?, hnode, Option.map_map]
    rfl
  | packageNode id =>
    rw [Target.rename, destination?, destination?, h.packages.node?, Option.map_map]
    rfl

theorem scopeOf_eq (ref : ElementRef) : t.scopeOf (ref.rename ρ) = s.scopeOf ref := by
  have hfile := h.file? ref.file
  rw [scopeOf, scopeOf, ElementRef.rename, hfile]
  cases s.file? ref.file <;> rfl

/-- The addresses of the elements of a file, in the order in which it declares them. -/
theorem filter_allElements_eq (id : Nat) :
    (t.allElements.filter fun ref => ref.file = ρ.file id) =
      (s.allElements.filter fun ref => ref.file = id).map (ElementRef.rename ρ) := by
  rw [filter_allElements, filter_allElements, h.file?]
  cases s.file? id with
  | none => rfl
  | some f =>
    simp only [Option.map_some, Option.getD_some, File.declared_rename, List.map_map]
    rfl

/-- The elements of a file with their addresses. -/
theorem filter_present_eq (id : Nat) :
    (t.present.filter fun e => e.1.file = ρ.file id) =
      (s.present.filter fun e => e.1.file = id).map fun e => (e.1.rename ρ, e.2.rename ρ) := by
  have hfilter (u : ApiSet) (id : Nat) : (u.present.filter fun e => e.1.file = id) =
      (u.allElements.filter fun ref => ref.file = id).filterMap fun ref =>
        (u.item? ref).map fun item => (ref, item) := by
    rw [present, List.filter_filterMap, List.filterMap_filter]
    refine List.filterMap_congr fun ref _ => ?_
    cases u.item? ref <;> by_cases hid : ref.file = id <;> simp [hid]
  rw [hfilter, hfilter, h.filter_allElements_eq, List.filterMap_map, List.map_filterMap]
  refine List.filterMap_congr fun ref _ => ?_
  rw [Function.comp_apply, h.item?_eq, Option.map_map, Option.map_map]
  rfl

theorem perm_numbered :
    t.numbered.Perm (s.numbered.map fun e => (ρ.file e.1, e.2.rename ρ)) := by
  have hnumbers : ((s.numbered.map fun e => (ρ.file e.1, e.2.rename ρ)).map Prod.fst).Nodup := by
    have hmap : ((s.numbered.map fun e => (ρ.file e.1, e.2.rename ρ)).map Prod.fst) =
        (s.numbered.map Prod.fst).map ρ.file := by
      rw [List.map_map, List.map_map]
      rfl
    exact hmap ▸ s.nodup_numbers.map ρ.file.injective
  refine (List.perm_ext_iff_of_nodup (t.nodup_numbers.of_map _) (hnumbers.of_map _)).mpr fun e => ?_
  rw [mem_numbered_iff, List.mem_map]
  obtain ⟨id, hid⟩ := ρ.file.surjective e.1
  rw [← hid, h.file?]
  constructor
  · intro he
    obtain ⟨f, hf, hrename⟩ := Option.map_eq_some_iff.mp he
    exact ⟨(id, f), mem_numbered_iff.mpr hf, Prod.ext hid hrename⟩
  · rintro ⟨x, hx, rfl⟩
    obtain rfl : id = x.1 := ρ.file.injective hid
    rw [mem_numbered_iff.mp hx]
    rfl

theorem perm_allElements : t.allElements.Perm (s.allElements.map (ElementRef.rename ρ)) := by
  refine (h.perm_numbered.flatMap_right _).trans (.of_eq ?_)
  rw [allElements, List.flatMap_map, List.map_flatMap]
  refine congrArg (s.numbered.flatMap ·) (funext fun e => ?_)
  simp only [File.declared_rename, List.map_map]
  rfl

/-! ### Matching changes of files -/

theorem mapFiles {k l : File → File} (hk : ∀ f, l (f.rename ρ) = (k f).rename ρ) :
    ApiSet.Renamed ρ { s with files := s.files.map k } { t with files := t.files.map l } := by
  refine { h with file? := fun id => ?_ }
  have hfile := h.file? id
  simp only [ApiSet.file?, List.getElem?_map] at hfile ⊢
  rw [hfile]
  cases s.files[id]? with
  | none => rfl
  | some f => exact congrArg some (hk f)

end ApiSet.Renamed

namespace ApiSet

/-- Changes of files one after the other, as one file sees them. -/
theorem file?_foldl_modifyFile {α : Type} (file : α → Nat) (k : α → File → File) (items : List α)
    (s : ApiSet) (id : Nat) :
    (items.foldl (fun s a => s.modifyFile (file a) (k a)) s).file? id =
      (s.file? id).map fun f =>
        (items.filter fun a => file a = id).foldl (fun f a => k a f) f := by
  induction items generalizing s with
  | nil => simp
  | cons a rest ih =>
    rw [List.foldl_cons, ih, file?_modifyFile]
    by_cases ha : file a = id
    · rw [if_pos ha, List.filter_cons_of_pos (by simpa using ha), Option.map_map]
      rfl
    · rw [if_neg ha, List.filter_cons_of_neg (by simpa using ha)]

theorem foldl_modifyFile_eq {α : Type} (file : α → Nat) (k : α → File → File) (items : List α)
    (s : ApiSet) : ∃ files, items.foldl (fun s a => s.modifyFile (file a) (k a)) s =
      { s with files := files } := by
  induction items generalizing s with
  | nil => exact ⟨s.files, rfl⟩
  | cons a rest ih =>
    obtain ⟨files, hfiles⟩ := ih (s.modifyFile (file a) (k a))
    exact ⟨files, hfiles⟩

/-- Changes of files that correspond, one after the other. The order in which different files come
up may differ. -/
theorem Renamed.foldl_modifyFile {ρ : Renaming} {s t : ApiSet} (h : s.Renamed ρ t) {α β : Type}
    {file : α → Nat} {file' : β → Nat} {k : α → File → File} {l : β → File → File} {m : α → β}
    {items : List α} {items' : List β}
    (hitems : ∀ id, (items'.filter fun b => file' b = ρ.file id) =
      (items.filter fun a => file a = id).map m)
    (hk : ∀ a ∈ items, ∀ f, l (m a) (f.rename ρ) = (k a f).rename ρ) :
    (items.foldl (fun s a => s.modifyFile (file a) (k a)) s).Renamed ρ
      (items'.foldl (fun t b => t.modifyFile (file' b) (l b)) t) := by
  have hfold (own : List α) (hown : ∀ a ∈ own, a ∈ items) (f : File) :
      (own.map m).foldl (fun f b => l b f) (f.rename ρ) =
        (own.foldl (fun f a => k a f) f).rename ρ := by
    induction own generalizing f with
    | nil => rfl
    | cons a rest ih =>
      rw [List.map_cons, List.foldl_cons, List.foldl_cons, hk a (hown a List.mem_cons_self)]
      exact ih (fun b hb => hown b (List.mem_cons_of_mem _ hb)) _
  have hfile (id : Nat) := file?_foldl_modifyFile file k items s id
  have hfile' (id : Nat) := file?_foldl_modifyFile file' l items' t (ρ.file id)
  obtain ⟨files, hfiles⟩ := foldl_modifyFile_eq file k items s
  obtain ⟨files', hfiles'⟩ := foldl_modifyFile_eq file' l items' t
  rw [hfiles] at hfile ⊢
  rw [hfiles'] at hfile' ⊢
  refine { h with file? := fun id => ?_ }
  rw [hfile', hfile, hitems, h.file?]
  cases s.file? id with
  | none => rfl
  | some f => exact congrArg some (hfold _ (fun a ha => List.mem_of_mem_filter ha) f)

/-- Changes of files that correspond, in the same order. -/
theorem Renamed.foldl_map {ρ : Renaming} {s t : ApiSet} (h : s.Renamed ρ t) {α β : Type}
    {file : α → Nat} {file' : β → Nat} {k : α → File → File} {l : β → File → File} {m : α → β}
    (hfile : ∀ a, file' (m a) = ρ.file (file a)) (hk : ∀ a f, l (m a) (f.rename ρ) = (k a f).rename ρ)
    (items : List α) :
    (items.foldl (fun s a => s.modifyFile (file a) (k a)) s).Renamed ρ
      ((items.map m).foldl (fun t b => t.modifyFile (file' b) (l b)) t) := by
  refine h.foldl_modifyFile (fun id => ?_) fun a _ => hk a
  rw [List.filter_map]
  refine congrArg (List.map m) (List.filter_congr fun a _ => ?_)
  simp [hfile]

end ApiSet

end ApiDoc
