import ApiDoc.Proofs.Spots

/-!
# Recasting files

A `Recast` puts something in the place of what files say: of texts, tags, hashes, markers and
sources, of the documentation of elements and of the references to what class-likes are built on. It
keeps the names of elements, so a recast file declares the same elements under the same addresses,
and each operation on files can be done before or after it.
-/

namespace ApiDoc

/-- What is put in the place of what files say. -/
structure Recast where
  info : Info → Info
  keepsName : KeepsName info
  base : Reference → Reference := id
  tags : Tags → Tags := id
  text : String → String := id
  hash : String → String := id
  markers : List Marker → List Marker := id
  source : Option String → Option String := id

/-! ### Maps -/

namespace NameMap

variable {α β : Type} {a : α → β}

theorem values_map (a : α → β) (m : NameMap α) : (m.map a).values = m.values.map a := by
  simp [values, map, mapEntries, Function.comp_def]

theorem contains_map (a : α → β) (m : NameMap α) (key : String) :
    (m.map a).contains key = m.contains key := by
  rw [contains, contains, get?_map, Option.isSome_map]

theorem map_modify {f : α → α} {g : β → β} (h : ∀ x, a (f x) = g (a x)) (m : NameMap α)
    (key : String) : (m.modify key f).map a = (m.map a).modify key g := by
  refine ext_get? fun other => ?_
  simp only [get?_map, get?_modify]
  split
  · cases m.get? other <;> simp [h]
  · rfl

theorem map_erase (a : α → β) (m : NameMap α) (key : String) :
    (m.erase key).map a = (m.map a).erase key := by
  refine ext_get? fun other => ?_
  simp only [get?_map, get?_erase]
  split <;> rfl

theorem map_insert (a : α → β) (m : NameMap α) (key : String) (value : α) :
    (m.insert key value).map a = (m.map a).insert key (a value) := by
  refine ext_get? fun other => ?_
  simp only [get?_map, get?_insert]
  split <;> rfl

theorem isEmpty_map (a : α → β) (m : NameMap α) : (m.map a).isEmpty = m.isEmpty := by
  simp [isEmpty, map, mapEntries]

end NameMap

/-! ### Members -/

namespace Members

variable (c : Recast) (m : Members)

/-- Members with their documentation recast. -/
def recast (m : Members) : Members where
  methods := m.methods.map (·.mapInfo c.info)
  properties := m.properties.map (·.mapInfo c.info)
  constants := m.constants.map (·.mapInfo c.info)

theorem item?_recast (kind : ElementKind) (name : String) :
    (m.recast c).item? kind name = (m.item? kind name).map (Item.mapInfo c.info) := by
  cases kind with
  | constant =>
    simp only [item?, recast, NameMap.get?_map, Option.map_map]
    refine congrArg (Option.map · _) (funext fun e => ?_)
    exact Element.constantItem_mapInfo c.keepsName e
  | method | property =>
    simp only [item?, recast, NameMap.get?_map, Option.map_map]
    rfl
  | «class» | interface | trait | function => rfl

theorem items_recast : (m.recast c).items = m.items.map (Item.mapInfo c.info) := by
  have hconstant : Element.constantItem ∘ Element.mapInfo c.info =
      Item.mapInfo c.info ∘ Element.constantItem :=
    funext fun e => Element.constantItem_mapInfo c.keepsName e
  simp only [items, recast, NameMap.values_map, List.map_append, List.map_map, hconstant]
  rfl

variable {c}

theorem recast_modifyInfo {g h : Info → Info} (hg : ∀ i, c.info (g i) = h (c.info i))
    (kind : ElementKind) (name : String) :
    (m.modifyInfo kind name g).recast c = (m.recast c).modifyInfo kind name h := by
  have hmap {β : Type} (e : Element β) :
      (e.mapInfo g).mapInfo c.info = (e.mapInfo c.info).mapInfo h := by
    simp only [Element.mapInfo, hg]
  cases kind <;> simp only [modifyInfo, recast, NameMap.map_modify hmap]

variable (c)

theorem recast_erase (kind : ElementKind) (name : String) :
    (m.erase kind name).recast c = (m.recast c).erase kind name := by
  cases kind <;> simp only [erase, recast, NameMap.map_erase]

end Members

/-! ### Files -/

/-- A class-like with its documentation recast and its body changed. -/
def Element.recast {α : Type} (c : Recast) (b : α → α) (e : Element α) : Element α :=
  ⟨c.info e.info, b e.body⟩

namespace File

variable (c : Recast) (f : File)

def recast (f : File) : File :=
  { f with
    hash := c.hash f.hash
    summary := c.text f.summary
    description := c.text f.description
    tags := c.tags f.tags
    classes := f.classes.map (·.recast c fun b =>
      { b with
        parent := b.parent.map c.base
        interfaces := b.interfaces.map c.base
        usedTraits := b.usedTraits.map c.base
        members := b.members.recast c })
    interfaces := f.interfaces.map (·.recast c fun b =>
      { b with
        parents := b.parents.map c.base
        members := b.members.recast c })
    traits := f.traits.map (·.recast c fun b =>
      { b with
        usedTraits := b.usedTraits.map c.base
        members := b.members.recast c })
    functions := f.functions.map (·.mapInfo c.info)
    constants := f.constants.map (·.mapInfo c.info)
    markers := c.markers f.markers
    source := c.source f.source }

theorem topItem?_recast (kind : ElementKind) (key : String) :
    (f.recast c).topItem? kind key = (f.topItem? kind key).map (Item.mapInfo c.info) := by
  cases kind with
  | constant =>
    simp only [topItem?, recast, NameMap.get?_map, Option.map_map]
    refine congrArg (Option.map · _) (funext fun e => ?_)
    exact Element.constantItem_mapInfo c.keepsName e
  | «class» | interface | trait | function =>
    simp only [topItem?, recast, NameMap.get?_map, Option.map_map]
    rfl
  | method | property => rfl

theorem membersIn?_recast (kind : ElementKind) (key : String) :
    (f.recast c).membersIn? kind key = (f.membersIn? kind key).map (Members.recast c) := by
  cases kind <;> simp only [membersIn?, recast, NameMap.get?_map, Option.map_map, Option.map_none] <;>
    rfl

/-- What stands at the spots of a recast file. -/
theorem at?_recast (p : Spot) : (f.recast c).at? p = (f.at? p).map (Item.mapInfo c.info) := by
  cases p with
  | top kind key => exact topItem?_recast c f kind key
  | member owner ownerKey kind key =>
    rw [at?, at?, membersIn?_recast]
    cases f.membersIn? owner ownerKey with
    | none => rfl
    | some m => exact m.item?_recast c kind key

theorem ownerKind?_recast (key : String) : (f.recast c).ownerKind? key = f.ownerKind? key := by
  simp only [ownerKind?, recast, NameMap.contains_map]

theorem spotOf_recast (kind : ElementKind) (fqsen : Fqsen) :
    (f.recast c).spotOf kind fqsen = f.spotOf kind fqsen :=
  spotOf_congr (ownerKind?_recast c f) kind fqsen

theorem item?_recast (kind : ElementKind) (fqsen : Fqsen) :
    (f.recast c).item? kind fqsen = (f.item? kind fqsen).map (Item.mapInfo c.info) := by
  rw [item?_eq, item?_eq, spotOf_recast]
  cases f.spotOf kind fqsen with
  | none => rfl
  | some p => exact at?_recast c f p

theorem topLevel_recast : (f.recast c).topLevel = f.topLevel.map (Item.mapInfo c.info) := by
  have hconstant : Element.constantItem ∘ Element.mapInfo c.info =
      Item.mapInfo c.info ∘ Element.constantItem :=
    funext fun e => Element.constantItem_mapInfo c.keepsName e
  simp only [topLevel, recast, NameMap.values_map, List.map_append, List.map_map, hconstant]
  rfl

theorem membersOf?_recast (fqsen : Fqsen) :
    (f.recast c).membersOf? fqsen = (f.membersOf? fqsen).map fun e => (e.1, e.2.recast c) := by
  rw [membersOf?_eq, membersOf?_eq, ownerKind?_recast]
  cases f.ownerKind? fqsen.text with
  | none => rfl
  | some k =>
    rw [Option.bind_some, Option.bind_some, membersIn?_recast]
    cases f.membersIn? k fqsen.text <;> rfl

/-- A recast file declares the same elements. -/
theorem declared_recast : (f.recast c).declared = f.declared := by
  have hmembers (m : Members) : ((m.recast c).items.map fun i => (i.kind, i.info.fqsen)) =
      m.items.map fun i => (i.kind, i.info.fqsen) := by
    rw [Members.items_recast, List.map_map]
    refine List.map_congr_left fun i _ => ?_
    exact congrArg (i.kind, ·) (c.keepsName i.info)
  rw [declared, declared, topLevel_recast, List.flatMap_map]
  refine congrArg (f.topLevel.flatMap ·) (funext fun item => ?_)
  have hname : (item.mapInfo c.info).info.fqsen = item.info.fqsen := c.keepsName item.info
  have hkind : (item.mapInfo c.info).kind = item.kind := rfl
  rw [hname, hkind, membersOf?_recast]
  cases f.membersOf? item.info.fqsen with
  | none => rfl
  | some e => simp only [Option.map_some, hmembers]

theorem bases_recast (kind : ElementKind) (fqsen : Fqsen) :
    (f.recast c).bases kind fqsen = (f.bases kind fqsen).map c.base := by
  have hbases : (f.recast c).basesAt? kind fqsen.text =
      (f.basesAt? kind fqsen.text).map (Bases.map c.base) := by
    cases kind <;> simp only [basesAt?, recast, NameMap.get?_map, Option.map_map, Option.map_none] <;>
      rfl
  rw [bases_eq, bases_eq, hbases]
  cases f.basesAt? kind fqsen.text <;> rfl

variable {c}

theorem recast_modifyMembers {g h : Members → Members} (hg : ∀ m, (g m).recast c = h (m.recast c))
    (fqsen : Fqsen) : (f.modifyMembers fqsen g).recast c = (f.recast c).modifyMembers fqsen h := by
  have hclasses : (f.recast c).classes.contains fqsen.text = f.classes.contains fqsen.text :=
    NameMap.contains_map ..
  have hinterfaces :
      (f.recast c).interfaces.contains fqsen.text = f.interfaces.contains fqsen.text :=
    NameMap.contains_map ..
  unfold modifyMembers
  rw [hclasses, hinterfaces]
  split
  case' isFalse => split
  all_goals
    dsimp only [recast]
    congr 1
    exact NameMap.map_modify (fun e => by simp only [Element.recast, hg]) _ _

/-- A change of documentation before or after a recast. -/
theorem recast_modifyInfo {g h : Info → Info} (hg : ∀ i, c.info (g i) = h (c.info i))
    (kind : ElementKind) (fqsen : Fqsen) :
    (f.modifyInfo kind fqsen g).recast c = (f.recast c).modifyInfo kind fqsen h := by
  have hmap {β : Type} (e : Element β) :
      (e.mapInfo g).mapInfo c.info = (e.mapInfo c.info).mapInfo h := by
    simp only [Element.mapInfo, hg]
  unfold modifyInfo
  split
  · cases fqsen.owner? with
    | none => rfl
    | some owner =>
      exact f.recast_modifyMembers (fun m => m.recast_modifyInfo hg kind fqsen.name) owner
  · cases kind with
    | «class» | interface | trait =>
      dsimp only [recast]
      congr 1
      exact NameMap.map_modify (fun e => by simp only [Element.mapInfo, Element.recast, hg]) _ _
    | function | constant =>
      dsimp only [recast]
      congr 1
      exact NameMap.map_modify hmap _ _
    | method | property => rfl

variable (c)

theorem recast_setBases (kind : ElementKind) (fqsen : Fqsen) (b : Bases) :
    (f.setBases kind fqsen b).recast c = (f.recast c).setBases kind fqsen (b.map c.base) := by
  cases kind with
  | «class» | interface | trait =>
    dsimp only [recast, setBases]
    congr 1
    refine NameMap.map_modify (fun e => ?_) _ _
    rfl
  | function | constant | method | property => rfl

theorem recast_erase (kind : ElementKind) (fqsen : Fqsen) :
    (f.erase kind fqsen).recast c = (f.recast c).erase kind fqsen := by
  unfold erase
  split
  · cases fqsen.owner? with
    | none => rfl
    | some owner => exact f.recast_modifyMembers (fun m => m.recast_erase c kind fqsen.name) owner
  · cases kind with
    | «class» | interface | trait | function | constant =>
      simp only [recast, NameMap.map_erase]
    | method | property => rfl

end File

end ApiDoc
