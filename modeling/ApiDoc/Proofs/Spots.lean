import ApiDoc.ApiSet

/-!
# Spots

The elements of a file stand at spots: under a kind and a key at the top, or under a kind and a key
within a class, interface or trait. An address leads to at most one spot, `File.spotOf`; a member is
looked for in the first of class, interface and trait that has the name of its owner, so the members
of a second one stand at spots to which no address leads. Each operation on files is described by
what stands at the spots afterwards.
-/

namespace ApiDoc

/-- Where an element stands in a file. -/
inductive Spot
  | top (kind : ElementKind) (key : String)
  | member (owner : ElementKind) (ownerKey : String) (kind : ElementKind) (key : String)
deriving DecidableEq

/-- The spot of the class-like around a spot. -/
def Spot.holder? : Spot → Option Spot
  | .top _ _ => none
  | .member owner ownerKey _ _ => some (.top owner ownerKey)

/-- A spot goes with another one that is itself or the class-like around it. -/
def Spot.GoesWith (p q : Spot) : Prop := p = q ∨ p.holder? = some q

def Item.mapInfo (g : Info → Info) (item : Item) : Item := { item with info := g item.info }

namespace File

/-- The element outside any class-like of a kind under a key. -/
def topItem? (f : File) (kind : ElementKind) (key : String) : Option Item :=
  match kind with
  | .class => (f.classes.get? key).map Element.classItem
  | .interface => (f.interfaces.get? key).map Element.interfaceItem
  | .trait => (f.traits.get? key).map Element.traitItem
  | .function => (f.functions.get? key).map Element.functionItem
  | .constant => (f.constants.get? key).map Element.constantItem
  | .method => none
  | .property => none

def membersIn? (f : File) (kind : ElementKind) (key : String) : Option Members :=
  match kind with
  | .class => (f.classes.get? key).map fun e => e.body.members
  | .interface => (f.interfaces.get? key).map fun e => e.body.members
  | .trait => (f.traits.get? key).map fun e => e.body.members
  | _ => none

def at? (f : File) : Spot → Option Item
  | .top kind key => f.topItem? kind key
  | .member owner ownerKey kind key => (f.membersIn? owner ownerKey).bind fun m => m.item? kind key

/-- Which of class, interface and trait the members of a name are looked for in. -/
def ownerKind? (f : File) (key : String) : Option ElementKind :=
  if f.classes.contains key then some .class
  else if f.interfaces.contains key then some .interface
  else if f.traits.contains key then some .trait
  else none

def spotOf (f : File) (kind : ElementKind) (fqsen : Fqsen) : Option Spot :=
  if throughOwner kind fqsen then do
    let owner ← fqsen.owner?
    let ownerKind ← f.ownerKind? owner.text
    return .member ownerKind owner.text kind fqsen.name
  else some (.top kind fqsen.text)

/-! ### Addresses -/

theorem membersOf?_eq (f : File) (fqsen : Fqsen) :
    f.membersOf? fqsen = (f.ownerKind? fqsen.text).bind fun k =>
      (f.membersIn? k fqsen.text).map fun m => (k, m) := by
  rw [membersOf?, ownerKind?]
  cases hc : f.classes.get? fqsen.text with
  | some e => simp [NameMap.contains, hc, membersIn?]
  | none =>
    cases hi : f.interfaces.get? fqsen.text with
    | some e => simp [NameMap.contains, hc, hi, membersIn?]
    | none =>
      cases ht : f.traits.get? fqsen.text with
      | some e => simp [NameMap.contains, hc, hi, ht, membersIn?]
      | none => simp [NameMap.contains, hc, hi, ht]

/-- An address is resolved by going to its spot. -/
theorem item?_eq (f : File) (kind : ElementKind) (fqsen : Fqsen) :
    f.item? kind fqsen = (f.spotOf kind fqsen).bind f.at? := by
  unfold item? spotOf
  split
  · rw [memberItem?]
    cases fqsen.owner? with
    | none => rfl
    | some owner =>
      simp only [membersOf?_eq, Option.bind_eq_bind, Option.bind_some]
      cases f.ownerKind? owner.text with
      | none => rfl
      | some k =>
        simp only [Option.bind_some]
        cases hm : f.membersIn? k owner.text <;> simp [at?, hm]
  · rfl

/-- Class-likes are not reached through an owner. -/
theorem throughOwner_eq_false {kind : ElementKind} (h : kind.isContainer = true) (fqsen : Fqsen) :
    throughOwner kind fqsen = false := by
  cases kind with
  | «class» | interface | trait => rfl
  | function | constant | method | property => simp [ElementKind.isContainer] at h

theorem spotOf_of_not_throughOwner (f : File) {kind : ElementKind} {fqsen : Fqsen}
    (h : throughOwner kind fqsen = false) : f.spotOf kind fqsen = some (.top kind fqsen.text) := by
  simp [spotOf, h]

theorem spotOf_eq_member {f : File} {kind : ElementKind} {fqsen : Fqsen} {p : Spot}
    (h : throughOwner kind fqsen = true) (hp : f.spotOf kind fqsen = some p) :
    ∃ owner k, fqsen.owner? = some owner ∧ f.ownerKind? owner.text = some k ∧
      p = .member k owner.text kind fqsen.name := by
  rw [spotOf, if_pos h] at hp
  cases ho : fqsen.owner? with
  | none => simp [ho] at hp
  | some owner =>
    cases hk : f.ownerKind? owner.text with
    | none => simp [ho, hk] at hp
    | some k =>
      refine ⟨owner, k, rfl, hk, ?_⟩
      simpa [ho, hk, eq_comm] using hp

theorem spotOf_eq_member_iff {f : File} {kind other k : ElementKind} {fqsen owner : Fqsen}
    {ownerKey key : String} (h : throughOwner kind fqsen = true) (ho : fqsen.owner? = some owner) :
    f.spotOf kind fqsen = some (.member k ownerKey other key) ↔
      (f.ownerKind? owner.text = some k ∧ ownerKey = owner.text) ∧
        other = kind ∧ key = fqsen.name := by
  rw [spotOf, if_pos h, ho]
  cases hk : f.ownerKind? owner.text with
  | none => simp [hk]
  | some found =>
    simp only [Option.bind_eq_bind, Option.bind_some, hk, Option.pure_def, Option.some.injEq,
      Spot.member.injEq]
    constructor
    · rintro ⟨rfl, rfl, rfl, rfl⟩
      exact ⟨⟨rfl, rfl⟩, rfl, rfl⟩
    · rintro ⟨⟨rfl, rfl⟩, rfl, rfl⟩
      exact ⟨rfl, rfl, rfl, rfl⟩

theorem spotOf_ne_top {f : File} {kind other : ElementKind} {fqsen : Fqsen} {key : String}
    (h : throughOwner kind fqsen = true) : f.spotOf kind fqsen ≠ some (.top other key) := by
  intro hp
  obtain ⟨_, _, _, _, hspot⟩ := spotOf_eq_member h hp
  simp at hspot

/-! ### Changing the members of a class-like -/

theorem ownerKind?_eq_some {f : File} {key : String} {kind : ElementKind}
    (h : f.ownerKind? key = some kind) : kind.isContainer = true ∧ (f.topItem? kind key).isSome := by
  rw [ownerKind?] at h
  split at h
  · next hc =>
    cases h
    simpa [ElementKind.isContainer, topItem?, NameMap.contains] using hc
  · split at h
    · next hi =>
      cases h
      simpa [ElementKind.isContainer, topItem?, NameMap.contains] using hi
    · split at h
      · next ht =>
        cases h
        simpa [ElementKind.isContainer, topItem?, NameMap.contains] using ht
      · simp at h

/-- The owner of a name depends only on which class-likes there are. -/
theorem ownerKind?_congr {f g : File}
    (h : ∀ kind key, (f.topItem? kind key).isSome = (g.topItem? kind key).isSome) (key : String) :
    f.ownerKind? key = g.ownerKind? key := by
  have hc : f.classes.contains key = g.classes.contains key := by
    simpa [topItem?, NameMap.contains] using h .class key
  have hi : f.interfaces.contains key = g.interfaces.contains key := by
    simpa [topItem?, NameMap.contains] using h .interface key
  have ht : f.traits.contains key = g.traits.contains key := by
    simpa [topItem?, NameMap.contains] using h .trait key
  rw [ownerKind?, ownerKind?, hc, hi, ht]

theorem spotOf_congr {f g : File} (h : ∀ key, f.ownerKind? key = g.ownerKind? key)
    (kind : ElementKind) (fqsen : Fqsen) : f.spotOf kind fqsen = g.spotOf kind fqsen := by
  simp only [spotOf, h]

theorem topItem?_modifyMembers (f : File) (fqsen : Fqsen) (g : Members → Members)
    (kind : ElementKind) (key : String) :
    (f.modifyMembers fqsen g).topItem? kind key = f.topItem? kind key := by
  rw [modifyMembers]
  split
  · cases kind <;> simp only [topItem?]
    exact NameMap.map_get?_modify_same _ _ _ fun _ => rfl
  · split
    · cases kind <;> simp only [topItem?]
      exact NameMap.map_get?_modify_same _ _ _ fun _ => rfl
    · cases kind <;> simp only [topItem?]
      exact NameMap.map_get?_modify_same _ _ _ fun _ => rfl

theorem membersIn?_modifyMembers (f : File) (fqsen : Fqsen) (g : Members → Members)
    (kind : ElementKind) (key : String) :
    (f.modifyMembers fqsen g).membersIn? kind key =
      if f.ownerKind? fqsen.text = some kind ∧ key = fqsen.text then (f.membersIn? kind key).map g
      else f.membersIn? kind key := by
  rw [modifyMembers, ownerKind?]
  split
  · cases kind <;> simp only [membersIn?, Option.some.injEq, reduceCtorEq, true_and, false_and,
      if_false]
    exact NameMap.map_get?_modify _ _ _ fun _ => rfl
  · split
    · cases kind <;> simp only [membersIn?, Option.some.injEq, reduceCtorEq, true_and, false_and,
        if_false]
      exact NameMap.map_get?_modify _ _ _ fun _ => rfl
    · split
      · cases kind <;> simp only [membersIn?, Option.some.injEq, reduceCtorEq, true_and, false_and,
          if_false]
        exact NameMap.map_get?_modify _ _ _ fun _ => rfl
      · next ht =>
        cases kind <;> simp only [membersIn?, reduceCtorEq, false_and, if_false]
        rw [NameMap.get?_modify]
        split
        · next hk =>
          have hnone : f.traits.get? fqsen.text = none := by simpa [NameMap.contains] using ht
          rw [hk, hnone]
          rfl
        · rfl

theorem at?_modifyMembers_top (f : File) (fqsen : Fqsen) (g : Members → Members)
    (kind : ElementKind) (key : String) :
    (f.modifyMembers fqsen g).at? (.top kind key) = f.at? (.top kind key) :=
  f.topItem?_modifyMembers fqsen g kind key

theorem at?_modifyMembers_member (f : File) (fqsen : Fqsen) (g : Members → Members)
    (k : ElementKind) (ownerKey : String) (kind : ElementKind) (key : String) :
    (f.modifyMembers fqsen g).at? (.member k ownerKey kind key) =
      if f.ownerKind? fqsen.text = some k ∧ ownerKey = fqsen.text then
        (f.membersIn? k ownerKey).bind fun m => (g m).item? kind key
      else f.at? (.member k ownerKey kind key) := by
  simp only [at?, membersIn?_modifyMembers]
  split
  · cases f.membersIn? k ownerKey <;> rfl
  · rfl

end File

/-! ### Changing documentation -/

/-- A change of documentation that keeps the full name. -/
def KeepsName (g : Info → Info) : Prop := ∀ i, (g i).fqsen = i.fqsen

theorem Element.constantItem_mapInfo {g : Info → Info} (hg : KeepsName g)
    (e : Element ConstantBody) : (e.mapInfo g).constantItem = e.constantItem.mapInfo g := by
  simp [Element.constantItem, Element.mapInfo, Item.mapInfo, hg e.info]

theorem Members.item?_modifyInfo (m : Members) (kind : ElementKind) (name : String)
    {g : Info → Info} (hg : KeepsName g) (other : ElementKind) (key : String) :
    (m.modifyInfo kind name g).item? other key =
      if other = kind ∧ key = name then (m.item? other key).map (Item.mapInfo g)
      else m.item? other key := by
  cases kind <;> cases other <;> simp only [Members.modifyInfo, Members.item?, reduceCtorEq,
    true_and, false_and, if_false, Option.map_none, ite_self]
  · exact NameMap.map_get?_modify _ _ _ (Element.constantItem_mapInfo hg)
  · exact NameMap.map_get?_modify _ _ _ fun _ => rfl
  · exact NameMap.map_get?_modify _ _ _ fun _ => rfl

namespace File

theorem membersIn?_modifyInfo_of_top (f : File) {kind : ElementKind} {fqsen : Fqsen}
    (h : throughOwner kind fqsen = false) (g : Info → Info) (k : ElementKind) (key : String) :
    (f.modifyInfo kind fqsen g).membersIn? k key = f.membersIn? k key := by
  unfold modifyInfo
  rw [if_neg (by simp [h])]
  cases kind with
  | «class» | interface | trait =>
    cases k <;> first | rfl | exact NameMap.map_get?_modify_same _ _ _ fun _ => rfl
  | function | constant | method | property => cases k <;> rfl

theorem topItem?_modifyInfo_of_top (f : File) {kind : ElementKind} {fqsen : Fqsen}
    (h : throughOwner kind fqsen = false) {g : Info → Info} (hg : KeepsName g)
    (k : ElementKind) (key : String) :
    (f.modifyInfo kind fqsen g).topItem? k key =
      if k = kind ∧ key = fqsen.text then (f.topItem? k key).map (Item.mapInfo g)
      else f.topItem? k key := by
  unfold modifyInfo
  rw [if_neg (by simp [h])]
  cases kind <;> cases k <;> simp only [topItem?, reduceCtorEq, true_and, false_and, if_false,
    Option.map_none, ite_self]
  · exact NameMap.map_get?_modify _ _ _ fun _ => rfl
  · exact NameMap.map_get?_modify _ _ _ fun _ => rfl
  · exact NameMap.map_get?_modify _ _ _ fun _ => rfl
  · exact NameMap.map_get?_modify _ _ _ fun _ => rfl
  · exact NameMap.map_get?_modify _ _ _ (Element.constantItem_mapInfo hg)

/-- What stands at the spots after a change of the documentation at an address. -/
theorem at?_modifyInfo (f : File) (kind : ElementKind) (fqsen : Fqsen) {g : Info → Info}
    (hg : KeepsName g) (p : Spot) :
    (f.modifyInfo kind fqsen g).at? p =
      if f.spotOf kind fqsen = some p then (f.at? p).map (Item.mapInfo g) else f.at? p := by
  cases h : throughOwner kind fqsen with
  | true =>
    unfold modifyInfo
    rw [if_pos h]
    cases ho : fqsen.owner? with
    | none => simp [spotOf, h, ho]
    | some owner =>
      cases p with
      | top k key => rw [at?_modifyMembers_top, if_neg (spotOf_ne_top h)]
      | member k ownerKey other key =>
        simp only [at?_modifyMembers_member, spotOf_eq_member_iff h ho,
          Members.item?_modifyInfo _ _ _ hg]
        by_cases hk : f.ownerKind? owner.text = some k ∧ ownerKey = owner.text
        · by_cases hm : other = kind ∧ key = fqsen.name
          · rw [if_pos hk, if_pos ⟨hk, hm⟩, at?]
            cases f.membersIn? k ownerKey <;> simp [hm]
          · rw [if_pos hk, if_neg fun hall => hm hall.2, at?]
            cases f.membersIn? k ownerKey <;> simp [hm]
        · rw [if_neg hk, if_neg fun hall => hk hall.1]
  | false =>
    rw [spotOf_of_not_throughOwner f h]
    cases p with
    | member k ownerKey other key =>
      rw [if_neg (by simp), at?, at?, membersIn?_modifyInfo_of_top f h]
    | top k key =>
      rw [at?, at?, topItem?_modifyInfo_of_top f h hg]
      simp only [Option.some.injEq, Spot.top.injEq, eq_comm]

end File

/-! ### Removing an element -/

theorem Members.item?_erase (m : Members) (kind : ElementKind) (name : String)
    (other : ElementKind) (key : String) :
    (m.erase kind name).item? other key =
      if other = kind ∧ key = name then none else m.item? other key := by
  cases kind <;> cases other <;> simp only [Members.erase, Members.item?, reduceCtorEq, true_and,
    false_and, if_false, ite_self, NameMap.get?_erase]
  all_goals split <;> rfl

namespace File

theorem topItem?_erase_of_top (f : File) {kind : ElementKind} {fqsen : Fqsen}
    (h : throughOwner kind fqsen = false) (k : ElementKind) (key : String) :
    (f.erase kind fqsen).topItem? k key =
      if k = kind ∧ key = fqsen.text then none else f.topItem? k key := by
  unfold erase
  rw [if_neg (by simp [h])]
  cases kind <;> cases k <;> simp only [topItem?, reduceCtorEq, true_and, false_and, if_false,
    ite_self, NameMap.get?_erase]
  all_goals split <;> rfl

theorem membersIn?_erase_of_top (f : File) {kind : ElementKind} {fqsen : Fqsen}
    (h : throughOwner kind fqsen = false) (k : ElementKind) (key : String) :
    (f.erase kind fqsen).membersIn? k key =
      if k = kind ∧ key = fqsen.text then none else f.membersIn? k key := by
  unfold erase
  rw [if_neg (by simp [h])]
  cases kind <;> cases k <;> simp only [membersIn?, reduceCtorEq, true_and, false_and, if_false,
    ite_self, NameMap.get?_erase]
  all_goals split <;> rfl

/-- An element is removed with what stands in it. -/
theorem at?_erase_of_goesWith {f : File} {kind : ElementKind} {fqsen : Fqsen} {p q : Spot}
    (hq : f.spotOf kind fqsen = some q) (hp : p.GoesWith q) :
    (f.erase kind fqsen).at? p = none := by
  cases h : throughOwner kind fqsen with
  | true =>
    obtain ⟨owner, k, ho, hk, rfl⟩ := spotOf_eq_member h hq
    rcases hp with rfl | hp
    · unfold erase
      simp only [h, if_true, ho, at?_modifyMembers_member, hk, true_and, Members.item?_erase]
      cases f.membersIn? k owner.text <;> rfl
    · cases p <;> simp [Spot.holder?] at hp
  | false =>
    rw [spotOf_of_not_throughOwner f h] at hq
    cases hq
    rcases hp with rfl | hp
    · rw [at?, topItem?_erase_of_top f h, if_pos ⟨rfl, rfl⟩]
    · cases p with
      | top k key => simp [Spot.holder?] at hp
      | member k ownerKey other key =>
        obtain ⟨rfl, rfl⟩ : k = kind ∧ ownerKey = fqsen.text := by simpa [Spot.holder?] using hp
        rw [at?, membersIn?_erase_of_top f h, if_pos ⟨rfl, rfl⟩]
        rfl

/-- Everything else stays. -/
theorem at?_erase_of_not_goesWith {f : File} {kind : ElementKind} {fqsen : Fqsen} {p : Spot}
    (hp : ∀ q, f.spotOf kind fqsen = some q → ¬ p.GoesWith q) :
    (f.erase kind fqsen).at? p = f.at? p := by
  cases h : throughOwner kind fqsen with
  | true =>
    unfold erase
    simp only [h, if_true]
    cases ho : fqsen.owner? with
    | none => rfl
    | some owner =>
      cases p with
      | top k key => exact at?_modifyMembers_top f owner _ k key
      | member k ownerKey other key =>
        simp only [at?_modifyMembers_member, Members.item?_erase]
        split
        · next hk =>
          have hne : ¬ (other = kind ∧ key = fqsen.name) := fun hm =>
            hp _ ((spotOf_eq_member_iff h ho).mpr ⟨hk, hm⟩) (.inl rfl)
          simp [hne, at?]
        · rfl
  | false =>
    have hq := hp _ (spotOf_of_not_throughOwner f h)
    cases p with
    | top k key =>
      rw [at?, at?, topItem?_erase_of_top f h, if_neg]
      rintro ⟨rfl, rfl⟩
      exact hq (.inl rfl)
    | member k ownerKey other key =>
      rw [at?, at?, membersIn?_erase_of_top f h, if_neg]
      rintro ⟨rfl, rfl⟩
      exact hq (.inr rfl)

end File

/-! ### What class-likes are built on -/

theorem Bases.all_map (h : Reference → Reference) (b : Bases) : (b.map h).all = b.all.map h := by
  cases b with
  | mk parent interfaces usedTraits => cases parent <;> simp [Bases.map, Bases.all]

namespace File

/-- What the class-like of a kind under a key is built on. -/
def basesAt? (f : File) (kind : ElementKind) (key : String) : Option Bases :=
  match kind with
  | .class => (f.classes.get? key).map fun e =>
    ⟨e.body.parent, e.body.interfaces, e.body.usedTraits⟩
  | .interface => (f.interfaces.get? key).map fun e => { interfaces := e.body.parents }
  | .trait => (f.traits.get? key).map fun e => { usedTraits := e.body.usedTraits }
  | _ => none

theorem bases_eq (f : File) (kind : ElementKind) (fqsen : Fqsen) :
    f.bases kind fqsen = (f.basesAt? kind fqsen.text).getD {} := by
  cases kind with
  | «class» => cases h : f.classes.get? fqsen.text <;> simp [bases, basesAt?, h]
  | interface => cases h : f.interfaces.get? fqsen.text <;> simp [bases, basesAt?, h]
  | trait => cases h : f.traits.get? fqsen.text <;> simp [bases, basesAt?, h]
  | function | constant | method | property => rfl

/-- What is built on something is a class-like at the top. -/
theorem isSome_topItem?_of_basesAt? {f : File} {kind : ElementKind} {key : String} {b : Bases}
    (h : f.basesAt? kind key = some b) :
    kind.isContainer = true ∧ (f.topItem? kind key).isSome := by
  cases kind with
  | «class» | interface | trait =>
    obtain ⟨e, he, -⟩ := Option.map_eq_some_iff.mp h
    simp [ElementKind.isContainer, topItem?, he]
  | function | constant | method | property => simp [basesAt?] at h

theorem topItem?_setBases (f : File) (kind : ElementKind) (fqsen : Fqsen) (b : Bases)
    (k : ElementKind) (key : String) :
    (f.setBases kind fqsen b).topItem? k key = f.topItem? k key := by
  cases kind with
  | «class» | interface | trait =>
    cases k <;> first | rfl | exact NameMap.map_get?_modify_same _ _ _ fun _ => rfl
  | function | constant | method | property => rfl

theorem membersIn?_setBases (f : File) (kind : ElementKind) (fqsen : Fqsen) (b : Bases)
    (k : ElementKind) (key : String) :
    (f.setBases kind fqsen b).membersIn? k key = f.membersIn? k key := by
  cases kind with
  | «class» | interface | trait =>
    cases k <;> first | rfl | exact NameMap.map_get?_modify_same _ _ _ fun _ => rfl
  | function | constant | method | property => rfl

theorem at?_setBases (f : File) (kind : ElementKind) (fqsen : Fqsen) (b : Bases) (p : Spot) :
    (f.setBases kind fqsen b).at? p = f.at? p := by
  cases p with
  | top k key => exact f.topItem?_setBases kind fqsen b k key
  | member k ownerKey other key => simp only [at?, membersIn?_setBases]

/-- Replacing what a class-like is built on does not show in a change of documentation. -/
theorem at?_setBases_modifyInfo (f : File) (kind : ElementKind) (fqsen : Fqsen) (b : Bases)
    {g : Info → Info} (hg : KeepsName g) (p : Spot) :
    ((f.setBases kind fqsen b).modifyInfo kind fqsen g).at? p =
      if f.spotOf kind fqsen = some p then (f.at? p).map (Item.mapInfo g) else f.at? p := by
  have htop (k : ElementKind) (key : String) :
      ((f.setBases kind fqsen b).topItem? k key).isSome = (f.topItem? k key).isSome := by
    rw [topItem?_setBases]
  have hspot := spotOf_congr (ownerKind?_congr htop) kind fqsen
  rw [at?_modifyInfo _ kind fqsen hg, hspot, at?_setBases]

/-- Replacing what one class-like is built on writes only references that were given, and leaves
the other class-likes as they are. -/
theorem basesAt?_setBases {f : File} {kind k : ElementKind} {fqsen : Fqsen} {key : String}
    {b found : Bases} (h : (f.setBases kind fqsen b).basesAt? k key = some found) :
    (k = kind ∧ key = fqsen.text ∧ ∀ r ∈ found.all, r ∈ b.all) ∨
      (¬ (k = kind ∧ key = fqsen.text) ∧ f.basesAt? k key = some found) := by
  by_cases hk : k = kind ∧ key = fqsen.text
  · obtain ⟨rfl, rfl⟩ := hk
    refine .inl ⟨rfl, rfl, ?_⟩
    cases k with
    | «class» | interface | trait =>
      simp only [setBases, basesAt?, NameMap.get?_modify_self, Option.map_map,
        Option.map_eq_some_iff] at h
      obtain ⟨e, -, rfl⟩ := h
      intro r hr
      simp_all [Bases.all]
    | function | constant | method | property => simp [basesAt?] at h
  · refine .inr ⟨hk, ?_⟩
    cases kind with
    | «class» | interface | trait =>
      cases k <;> simp_all [setBases, basesAt?, NameMap.get?_modify]
    | function | constant | method | property => exact h

theorem basesAt?_modifyMembers (f : File) (owner : Fqsen) (g : Members → Members)
    (k : ElementKind) (key : String) :
    (f.modifyMembers owner g).basesAt? k key = f.basesAt? k key := by
  rw [modifyMembers]
  split
  · cases k <;> first | rfl | exact NameMap.map_get?_modify_same _ _ _ fun _ => rfl
  · split
    · cases k <;> first | rfl | exact NameMap.map_get?_modify_same _ _ _ fun _ => rfl
    · cases k <;> first | rfl | exact NameMap.map_get?_modify_same _ _ _ fun _ => rfl

theorem basesAt?_modifyInfo (f : File) (kind : ElementKind) (fqsen : Fqsen) (g : Info → Info)
    (k : ElementKind) (key : String) :
    (f.modifyInfo kind fqsen g).basesAt? k key = f.basesAt? k key := by
  unfold modifyInfo
  split
  · cases fqsen.owner? with
    | none => rfl
    | some owner => exact f.basesAt?_modifyMembers owner _ k key
  · cases kind with
    | «class» | interface | trait =>
      cases k <;> first | rfl | exact NameMap.map_get?_modify_same _ _ _ fun _ => rfl
    | function | constant | method | property => rfl

/-! ### The tags of files -/

theorem tags_modifyMembers (f : File) (fqsen : Fqsen) (g : Members → Members) :
    (f.modifyMembers fqsen g).tags = f.tags := by
  rw [modifyMembers]
  split
  · rfl
  · split <;> rfl

theorem tags_setBases_modifyInfo (f : File) (kind : ElementKind) (fqsen : Fqsen) (b : Bases)
    (g : Info → Info) : ((f.setBases kind fqsen b).modifyInfo kind fqsen g).tags = f.tags := by
  have hset : (f.setBases kind fqsen b).tags = f.tags := by cases kind <;> rfl
  rw [← hset]
  unfold modifyInfo
  split
  · split
    · exact tags_modifyMembers _ _ _
    · rfl
  · cases kind <;> rfl

end File

end ApiDoc
