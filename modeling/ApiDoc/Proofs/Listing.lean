import ApiDoc.Proofs.Course
import ApiDoc.Proofs.Removal
import Mathlib.Data.List.Nodup
import Mathlib.Data.List.Pairwise

/-!
# The listing of elements

The listing of a set names the elements by their addresses. Here every address of the listing comes
with the spot of the element that it was made from. A file is enumerated well if every element that
it declares is listed once and the address of every listed element leads back to it. Main statement:
this holds exactly of the files in which class-likes that share a name have no members, and in which
no constant outside class-likes has the name of a member.
-/

namespace ApiDoc

/-! ### Elements with their spots -/

/-- The members of a class-like with their spots, in the order of `Members.items`. -/
def Members.placed (owner : ElementKind) (ownerKey : String) (m : Members) : List (Spot × Item) :=
  m.constants.entries.map
      (fun e => (.member owner ownerKey .constant e.1, e.2.constantItem)) ++
    m.properties.entries.map
      (fun e => (.member owner ownerKey .property e.1, e.2.propertyItem)) ++
    m.methods.entries.map (fun e => (.member owner ownerKey .method e.1, e.2.methodItem))

namespace File

/-- The elements outside any class-like with their spots, in the order of `File.topLevel`. -/
def placedTop (f : File) : List (Spot × Item) :=
  f.constants.entries.map (fun e => (.top .constant e.1, e.2.constantItem)) ++
    f.functions.entries.map (fun e => (.top .function e.1, e.2.functionItem)) ++
    f.classes.entries.map (fun e => (.top .class e.1, e.2.classItem)) ++
    f.interfaces.entries.map (fun e => (.top .interface e.1, e.2.interfaceItem)) ++
    f.traits.entries.map (fun e => (.top .trait e.1, e.2.traitItem))

/-- The members that the listing names behind an element outside any class-like. -/
def placedBehind (f : File) (item : Item) : List (Spot × Item) :=
  if item.kind.isContainer then
    match f.membersOf? item.info.fqsen with
    | some (kind, members) => members.placed kind item.info.fqsen.text
    | none => []
  else []

/-- The elements that a file lists, in order, with the spots that they stand at. -/
def listing (f : File) : List (Spot × Item) :=
  f.placedTop.flatMap fun e => e :: f.placedBehind e.2

end File

theorem Members.map_placed (owner : ElementKind) (ownerKey : String) (m : Members) :
    (m.placed owner ownerKey).map Prod.snd = m.items := by
  simp [placed, items, NameMap.values, Function.comp_def]

theorem Members.mem_placed_iff {owner : ElementKind} {ownerKey : String} {m : Members} {p : Spot}
    {item : Item} :
    (p, item) ∈ m.placed owner ownerKey ↔
      ∃ kind key, p = .member owner ownerKey kind key ∧ m.item? kind key = some item := by
  simp only [placed, List.mem_append, List.mem_map, Prod.exists, Prod.mk.injEq,
    NameMap.mem_entries_iff]
  constructor
  · rintro ((⟨key, e, he, rfl, rfl⟩ | ⟨key, e, he, rfl, rfl⟩) | ⟨key, e, he, rfl, rfl⟩)
    · exact ⟨.constant, key, rfl, by simp [item?, he]⟩
    · exact ⟨.property, key, rfl, by simp [item?, he]⟩
    · exact ⟨.method, key, rfl, by simp [item?, he]⟩
  · rintro ⟨kind, key, rfl, h⟩
    cases kind with
    | constant =>
      obtain ⟨e, he, rfl⟩ := Option.map_eq_some_iff.mp h
      exact .inl (.inl ⟨key, e, he, rfl, rfl⟩)
    | property =>
      obtain ⟨e, he, rfl⟩ := Option.map_eq_some_iff.mp h
      exact .inl (.inr ⟨key, e, he, rfl, rfl⟩)
    | method =>
      obtain ⟨e, he, rfl⟩ := Option.map_eq_some_iff.mp h
      exact .inr ⟨key, e, he, rfl, rfl⟩
    | «class» | interface | trait | function => simp [item?] at h

namespace File

theorem map_placedTop (f : File) : f.placedTop.map Prod.snd = f.topLevel := by
  simp [placedTop, topLevel, NameMap.values, Function.comp_def]

theorem mem_placedTop_iff {f : File} {p : Spot} {item : Item} :
    (p, item) ∈ f.placedTop ↔ ∃ kind key, p = .top kind key ∧ f.topItem? kind key = some item := by
  simp only [placedTop, List.mem_append, List.mem_map, Prod.exists, Prod.mk.injEq,
    NameMap.mem_entries_iff]
  constructor
  · rintro ((((⟨key, e, he, rfl, rfl⟩ | ⟨key, e, he, rfl, rfl⟩) | ⟨key, e, he, rfl, rfl⟩) |
      ⟨key, e, he, rfl, rfl⟩) | ⟨key, e, he, rfl, rfl⟩)
    · exact ⟨.constant, key, rfl, by simp [topItem?, he]⟩
    · exact ⟨.function, key, rfl, by simp [topItem?, he]⟩
    · exact ⟨.class, key, rfl, by simp [topItem?, he]⟩
    · exact ⟨.interface, key, rfl, by simp [topItem?, he]⟩
    · exact ⟨.trait, key, rfl, by simp [topItem?, he]⟩
  · rintro ⟨kind, key, rfl, h⟩
    cases kind with
    | constant =>
      obtain ⟨e, he, rfl⟩ := Option.map_eq_some_iff.mp h
      exact .inl (.inl (.inl (.inl ⟨key, e, he, rfl, rfl⟩)))
    | function =>
      obtain ⟨e, he, rfl⟩ := Option.map_eq_some_iff.mp h
      exact .inl (.inl (.inl (.inr ⟨key, e, he, rfl, rfl⟩)))
    | «class» =>
      obtain ⟨e, he, rfl⟩ := Option.map_eq_some_iff.mp h
      exact .inl (.inl (.inr ⟨key, e, he, rfl, rfl⟩))
    | interface =>
      obtain ⟨e, he, rfl⟩ := Option.map_eq_some_iff.mp h
      exact .inl (.inr ⟨key, e, he, rfl, rfl⟩)
    | trait =>
      obtain ⟨e, he, rfl⟩ := Option.map_eq_some_iff.mp h
      exact .inr ⟨key, e, he, rfl, rfl⟩
    | method | property => simp [topItem?] at h

/-- The listing with spots is the listing of the file. -/
theorem map_listing (f : File) :
    f.listing.map (fun e => (e.2.kind, e.2.info.fqsen)) = f.declared := by
  rw [listing, declared, ← map_placedTop, List.map_flatMap, List.flatMap_map]
  congr 1
  funext e
  rw [List.map_cons, placedBehind]
  congr 1
  cases e.2.kind.isContainer with
  | false => rfl
  | true =>
    cases hm : f.membersOf? e.2.info.fqsen with
    | none => rfl
    | some found =>
      obtain ⟨kind, members⟩ := found
      simp only [if_true, ← members.map_placed kind e.2.info.fqsen.text, List.map_map,
        Function.comp_def]

theorem mem_placedBehind_iff {f : File} {top item : Item} {p : Spot} :
    (p, item) ∈ f.placedBehind top ↔ top.kind.isContainer = true ∧ ∃ owner kind key,
      p = .member owner top.info.fqsen.text kind key ∧
        f.ownerKind? top.info.fqsen.text = some owner ∧ f.at? p = some item := by
  rw [placedBehind]
  split
  · next hcontainer =>
    rw [membersOf?_eq]
    cases howner : f.ownerKind? top.info.fqsen.text with
    | none => simp
    | some owner =>
      simp only [Option.bind_some, hcontainer, true_and, Option.some.injEq]
      constructor
      · intro h
        cases hm : f.membersIn? owner top.info.fqsen.text with
        | none => simp [hm] at h
        | some m =>
          simp only [hm, Option.map_some] at h
          obtain ⟨kind, key, rfl, hitem⟩ := Members.mem_placed_iff.mp h
          exact ⟨owner, kind, key, rfl, rfl, by simp [at?, hm, hitem]⟩
      · rintro ⟨_, kind, key, rfl, rfl, hat⟩
        obtain ⟨m, hm, hitem⟩ := Option.bind_eq_some_iff.mp hat
        simp only [hm, Option.map_some]
        exact Members.mem_placed_iff.mpr ⟨kind, key, rfl, hitem⟩
  · next hcontainer => simp [hcontainer]

/-- Listed are the elements outside class-likes, and the members of the class-like in which the
members of its name are looked for. -/
theorem mem_listing_iff {f : File} (hf : f.Keyed) {p : Spot} {item : Item} :
    (p, item) ∈ f.listing ↔ f.at? p = some item ∧ f.Lists p := by
  simp only [listing, List.mem_flatMap, List.mem_cons]
  constructor
  · rintro ⟨⟨q, top⟩, htop, heq | hbehind⟩
    · cases heq
      obtain ⟨kind, key, rfl, hitem⟩ := mem_placedTop_iff.mp htop
      exact ⟨hitem, trivial⟩
    · obtain ⟨-, owner, kind, key, rfl, howner, hat⟩ := mem_placedBehind_iff.mp hbehind
      exact ⟨hat, howner⟩
  · rintro ⟨hat, hlists⟩
    cases p with
    | top kind key => exact ⟨_, mem_placedTop_iff.mpr ⟨kind, key, rfl, hat⟩, .inl rfl⟩
    | member owner ownerKey kind key =>
      obtain ⟨hcontainer, hsome⟩ := ownerKind?_eq_some hlists
      obtain ⟨top, htop⟩ := Option.isSome_iff_exists.mp hsome
      obtain ⟨hkind, rfl⟩ := hf.kind_eq_of_top htop
      refine ⟨_, mem_placedTop_iff.mpr ⟨owner, _, rfl, htop⟩, .inr ?_⟩
      exact mem_placedBehind_iff.mpr ⟨hkind ▸ hcontainer, owner, kind, key, rfl, hlists, hat⟩

end File

/-! ### Each spot once -/

theorem NameMap.nodup_map_entries {α β : Type} (m : NameMap α) {spot : String → β}
    (h : Function.Injective spot) : (m.entries.map fun e => spot e.1).Nodup := by
  have hkeys := m.nodup_keys.map h
  rwa [NameMap.keys, List.map_map] at hkeys

theorem Members.nodup_placed (owner : ElementKind) (ownerKey : String) (m : Members) :
    ((m.placed owner ownerKey).map Prod.fst).Nodup := by
  have hinjective (kind : ElementKind) : Function.Injective (Spot.member owner ownerKey kind) :=
    fun _ _ heq => (Spot.member.inj heq).2.2.2
  simp only [placed, List.map_append, List.map_map, Function.comp_def, List.nodup_append]
  refine ⟨⟨m.constants.nodup_map_entries (hinjective _), m.properties.nodup_map_entries (hinjective _),
    ?_⟩, m.methods.nodup_map_entries (hinjective _), ?_⟩
  all_goals grind

theorem File.nodup_placedTop (f : File) : (f.placedTop.map Prod.fst).Nodup := by
  have hinjective (kind : ElementKind) : Function.Injective (Spot.top kind) :=
    fun _ _ heq => (Spot.top.inj heq).2
  simp only [placedTop, List.map_append, List.map_map, Function.comp_def, List.nodup_append]
  refine ⟨⟨⟨⟨f.constants.nodup_map_entries (hinjective _),
    f.functions.nodup_map_entries (hinjective _), ?_⟩,
    f.classes.nodup_map_entries (hinjective _), ?_⟩,
    f.interfaces.nodup_map_entries (hinjective _), ?_⟩,
    f.traits.nodup_map_entries (hinjective _), ?_⟩
  all_goals grind

namespace File

/-- Class-likes of one name have no members. -/
def Unshared (f : File) : Prop :=
  ∀ key k l, k ≠ l → k.isContainer = true → l.isContainer = true → (f.topItem? k key).isSome →
    (f.topItem? l key).isSome → ∀ kind name, f.at? (.member k key kind name) = none

/-- No constant outside class-likes has the name of a member. -/
def ConstantsOutside (f : File) : Prop :=
  ∀ key item, f.topItem? .constant key = some item → item.info.fqsen.isMember = false

theorem nodup_placedBehind (f : File) (top : Item) :
    ((f.placedBehind top).map Prod.fst).Nodup := by
  rw [placedBehind]
  split
  · split
    · next kind members _ => exact members.nodup_placed kind _
    · exact List.nodup_nil
  · exact List.nodup_nil

theorem mem_spots_placedBehind_iff {f : File} {top : Item} {p : Spot} :
    p ∈ (f.placedBehind top).map Prod.fst ↔ top.kind.isContainer = true ∧ ∃ owner kind key,
      p = .member owner top.info.fqsen.text kind key ∧
        f.ownerKind? top.info.fqsen.text = some owner ∧ (f.at? p).isSome := by
  simp only [List.mem_map, Prod.exists, exists_and_right, exists_eq_right, mem_placedBehind_iff,
    Option.isSome_iff_exists]
  grind

section Keyed

variable {f : File} (hf : f.Keyed)
include hf

/-- Class-likes of one name that share their members list them behind each of the two. -/
theorem at?_member_eq_none_of_disjoint {k l : ElementKind} {key : String} {first second : Item}
    (hfirst : f.topItem? k key = some first) (hsecond : f.topItem? l key = some second)
    (hk : k.isContainer = true) (hl : l.isContainer = true) (howner : f.ownerKind? key = some k)
    (h : List.Disjoint ((Spot.top k key) :: (f.placedBehind first).map Prod.fst)
      ((Spot.top l key) :: (f.placedBehind second).map Prod.fst))
    (kind : ElementKind) (name : String) : f.at? (.member k key kind name) = none := by
  obtain ⟨hkindFirst, hkeyFirst⟩ := hf.kind_eq_of_top hfirst
  obtain ⟨hkindSecond, hkeySecond⟩ := hf.kind_eq_of_top hsecond
  rw [← Option.not_isSome_iff_eq_none]
  intro hmember
  refine @h (.member k key kind name) (List.mem_cons_of_mem _ ?_) (List.mem_cons_of_mem _ ?_)
  · exact mem_spots_placedBehind_iff.mpr
      ⟨hkindFirst ▸ hk, k, kind, name, by rw [hkeyFirst], by rw [hkeyFirst, howner], hmember⟩
  · exact mem_spots_placedBehind_iff.mpr
      ⟨hkindSecond ▸ hl, k, kind, name, by rw [hkeySecond], by rw [hkeySecond, howner], hmember⟩

/-- Two elements at the top have no spot in common, themselves or behind them, if no members are
found for two class-likes of one name. -/
theorem disjoint_listed
    (h : ∀ key k l, k ≠ l → l.isContainer = true → (f.topItem? l key).isSome →
      f.ownerKind? key = some k → ∀ kind name, f.at? (.member k key kind name) = none)
    {k l : ElementKind} {key other : String} {first second : Item}
    (hfirst : f.topItem? k key = some first) (hsecond : f.topItem? l other = some second)
    (hne : Spot.top k key ≠ Spot.top l other) :
    List.Disjoint ((Spot.top k key) :: (f.placedBehind first).map Prod.fst)
      ((Spot.top l other) :: (f.placedBehind second).map Prod.fst) := by
  obtain ⟨hkindFirst, rfl⟩ := hf.kind_eq_of_top hfirst
  obtain ⟨hkindSecond, rfl⟩ := hf.kind_eq_of_top hsecond
  intro spot hleft hright
  rcases List.mem_cons.mp hleft with rfl | hleft
  · rcases List.mem_cons.mp hright with heq | hright
    · exact hne heq
    · obtain ⟨-, _, _, _, heq, -⟩ := mem_spots_placedBehind_iff.mp hright
      simp at heq
  · obtain ⟨hcontainer, owner, kind, name, rfl, howner, hmember⟩ :=
      mem_spots_placedBehind_iff.mp hleft
    rcases List.mem_cons.mp hright with heq | hright
    · simp at heq
    · obtain ⟨hcontainerSecond, _, _, _, heq, -⟩ := mem_spots_placedBehind_iff.mp hright
      obtain ⟨-, htext, -⟩ := Spot.member.inj heq
      -- one of the two is not the class-like in which the members are looked for
      by_cases hk : owner = k
      · subst hk
        have hnone := h _ owner l (fun heq => hne (by rw [heq, htext]))
          (hkindSecond ▸ hcontainerSecond) (by rw [htext, hsecond]; rfl) howner kind name
        simp [hnone] at hmember
      · have hnone := h _ owner k hk (hkindFirst ▸ hcontainer) (by rw [hfirst]; rfl) howner
          kind name
        simp [hnone] at hmember

/-- No spot is listed twice exactly if members are listed behind one class-like only. -/
theorem nodup_listing_iff :
    (f.listing.map Prod.fst).Nodup ↔ ∀ key k l, k ≠ l → l.isContainer = true →
      (f.topItem? l key).isSome → f.ownerKind? key = some k →
        ∀ kind name, f.at? (.member k key kind name) = none := by
  have hcons : f.listing.map Prod.fst =
      f.placedTop.flatMap fun e => e.1 :: (f.placedBehind e.2).map Prod.fst := by
    simp only [listing, List.map_flatMap, List.map_cons]
  rw [hcons, List.nodup_flatMap]
  constructor
  · rintro ⟨-, hdisjoint⟩ key k l hkl hl hsome howner
    obtain ⟨hk, hsomeOwner⟩ := ownerKind?_eq_some howner
    obtain ⟨first, hfirst⟩ := Option.isSome_iff_exists.mp hsomeOwner
    obtain ⟨second, hsecond⟩ := Option.isSome_iff_exists.mp hsome
    have hne : ((Spot.top k key, first) : Spot × Item) ≠ (Spot.top l key, second) := by
      simp [hkl]
    have hsymm : Std.Symm (Function.onFun List.Disjoint
        fun e : Spot × Item => e.1 :: (f.placedBehind e.2).map Prod.fst) :=
      ⟨fun _ _ h _ ha hb => h hb ha⟩
    have hapart := hdisjoint.forall
      (mem_placedTop_iff.mpr ⟨k, key, rfl, hfirst⟩) (mem_placedTop_iff.mpr ⟨l, key, rfl, hsecond⟩) hne
    exact at?_member_eq_none_of_disjoint hf hfirst hsecond hk hl howner hapart
  · intro h
    constructor
    · rintro ⟨p, top⟩ htop
      obtain ⟨kind, key, rfl, -⟩ := mem_placedTop_iff.mp htop
      refine List.nodup_cons.mpr ⟨fun hmem => ?_, f.nodup_placedBehind top⟩
      obtain ⟨-, _, _, _, heq, -⟩ := mem_spots_placedBehind_iff.mp hmem
      simp at heq
    · have hpairs := f.nodup_placedTop
      rw [List.Nodup, List.pairwise_map] at hpairs
      refine hpairs.imp_of_mem fun {a b} ha hb hne => ?_
      obtain ⟨p, first⟩ := a
      obtain ⟨q, second⟩ := b
      obtain ⟨k, key, rfl, hfirst⟩ := mem_placedTop_iff.mp ha
      obtain ⟨l, other, rfl, hsecond⟩ := mem_placedTop_iff.mp hb
      exact disjoint_listed hf h hfirst hsecond hne

/-- Every element is listed exactly if only one class-like of a name has members. -/
theorem forall_mem_listing_iff :
    (∀ p item, f.at? p = some item → (p, item) ∈ f.listing) ↔
      ∀ key k l, k ≠ l → f.ownerKind? key = some l →
        ∀ kind name, f.at? (.member k key kind name) = none := by
  simp only [mem_listing_iff hf]
  constructor
  · intro h key k l hkl howner kind name
    rw [Option.eq_none_iff_forall_ne_some]
    intro item hitem
    have hlists := (h _ item hitem).2
    exact hkl (Option.some.inj (hlists.symm.trans howner))
  · intro h p item hitem
    refine ⟨hitem, ?_⟩
    cases p with
    | top kind key => trivial
    | member k key kind name =>
      obtain ⟨m, hm, -⟩ := Option.bind_eq_some_iff.mp hitem
      obtain ⟨hcontainer, hsome⟩ := isSome_topItem?_of_membersIn? hm
      obtain ⟨l, hl⟩ := exists_ownerKind? hcontainer hsome
      by_cases hkl : k = l
      · exact hkl ▸ hl
      · simp [h key k l hkl hl kind name] at hitem

/-- The address of a listed element leads back to it, unless it is a constant outside class-likes
with the name of a member. -/
theorem spotOf_listing_iff {p : Spot} {item : Item} (h : (p, item) ∈ f.listing) :
    f.spotOf item.kind item.info.fqsen = some p ↔
      ∀ key, p = .top .constant key → item.info.fqsen.isMember = false := by
  obtain ⟨hitem, hlists⟩ := (mem_listing_iff hf).mp h
  have hnames := hf p item hitem
  cases p with
  | top kind key =>
    obtain ⟨hkind, rfl⟩ := hnames
    rw [hkind]
    cases kind with
    | constant =>
      simp only [Spot.top.injEq, true_and, forall_eq']
      rw [Bool.eq_false_iff]
      constructor
      · intro hleads hmember
        have hthrough : throughOwner .constant item.info.fqsen = true := hmember
        exact spotOf_ne_top hthrough hleads
      · intro hplain
        exact spotOf_of_not_throughOwner f (Bool.eq_false_iff.mpr hplain)
    | «class» | interface | trait | function => simp [spotOf, throughOwner]
    | method | property => simp [at?, topItem?] at hitem
  | member owner ownerKey kind key =>
    obtain ⟨hkind, hthrough, howner, hname⟩ := hnames
    rw [hkind, spotOf_eq_member_iff hthrough howner]
    simpa using ⟨hlists, hname.symm⟩

/-- The addresses of listed elements lead back exactly if no constant outside class-likes has the
name of a member. -/
theorem forall_spotOf_listing_iff :
    (∀ e ∈ f.listing, f.spotOf e.2.kind e.2.info.fqsen = some e.1) ↔ f.ConstantsOutside := by
  constructor
  · intro h key item hitem
    have hat : f.at? (.top .constant key) = some item := hitem
    have hmem := (mem_listing_iff hf).mpr ⟨hat, trivial⟩
    exact (spotOf_listing_iff hf hmem).mp (h (.top .constant key, item) hmem) key rfl
  · rintro h ⟨p, item⟩ hmem
    refine (spotOf_listing_iff hf hmem).mpr fun key hp => ?_
    subst hp
    exact h key item ((mem_listing_iff hf).mp hmem).1

end Keyed

/-- Every element of the file is listed once, and the address of every listed element leads to it. -/
structure Enumerated (f : File) : Prop where
  once : ∀ p, (f.at? p).isSome → (f.listing.map Prod.fst).count p = 1
  leads : ∀ e ∈ f.listing, f.spotOf e.2.kind e.2.info.fqsen = some e.1

theorem enumerated_iff {f : File} (hf : f.Keyed) :
    f.Enumerated ↔ f.Unshared ∧ f.ConstantsOutside := by
  have hat {p : Spot} (h : p ∈ f.listing.map Prod.fst) : ∃ item, (p, item) ∈ f.listing := by
    simpa using h
  constructor
  · rintro ⟨honce, hleads⟩
    refine ⟨?_, (forall_spotOf_listing_iff hf).mp hleads⟩
    have hnodup : (f.listing.map Prod.fst).Nodup := by
      refine List.nodup_iff_count_le_one.mpr fun p => ?_
      by_cases hmem : p ∈ f.listing.map Prod.fst
      · obtain ⟨item, hitem⟩ := hat hmem
        exact Nat.le_of_eq (honce p (by rw [((mem_listing_iff hf).mp hitem).1]; rfl))
      · rw [List.count_eq_zero.mpr hmem]
        exact Nat.zero_le 1
    have hall (p : Spot) (item : Item) (hitem : f.at? p = some item) : (p, item) ∈ f.listing := by
      have hmem : p ∈ f.listing.map Prod.fst := by
        rw [← List.count_pos_iff, honce p (by rw [hitem]; rfl)]
        exact Nat.one_pos
      obtain ⟨found, hfound⟩ := hat hmem
      cases hitem.symm.trans ((mem_listing_iff hf).mp hfound).1
      exact hfound
    intro key k l hkl hk hl hsome hother kind name
    obtain ⟨owner, howner⟩ := exists_ownerKind? hk hsome
    by_cases heq : k = owner
    · subst heq
      exact (nodup_listing_iff hf).mp hnodup key k l hkl hl hother howner kind name
    · exact (forall_mem_listing_iff hf).mp hall key k owner heq howner kind name
  · rintro ⟨hunshared, houtside⟩
    refine ⟨fun p hsome => ?_, (forall_spotOf_listing_iff hf).mpr houtside⟩
    obtain ⟨item, hitem⟩ := Option.isSome_iff_exists.mp hsome
    refine List.count_eq_one_of_mem ?_ (List.mem_map.mpr ⟨(p, item), ?_, rfl⟩)
    · refine (nodup_listing_iff hf).mpr fun key k l hkl hl hother howner kind name => ?_
      obtain ⟨hk, hsome⟩ := ownerKind?_eq_some howner
      exact hunshared key k l hkl hk hl hsome hother kind name
    · refine (forall_mem_listing_iff hf).mpr (fun key k l hkl howner kind name => ?_) p item hitem
      obtain ⟨hl, hother⟩ := ownerKind?_eq_some howner
      rw [← Option.not_isSome_iff_eq_none]
      intro hmember
      obtain ⟨found, hfound⟩ := Option.isSome_iff_exists.mp hmember
      obtain ⟨m, hm, -⟩ := Option.bind_eq_some_iff.mp hfound
      obtain ⟨hk, hsome⟩ := isSome_topItem?_of_membersIn? hm
      simp [hunshared key k l hkl hk hl hsome hother kind name] at hmember

end File

/-! ### Sets -/

/-- The addresses of the elements of a file, each with the spot of the element that it was made
from. -/
def File.sources (id : Nat) (f : File) : List (ElementRef × Spot) :=
  f.listing.map fun e => (⟨id, e.2.kind, e.2.info.fqsen⟩, e.1)

theorem File.file_of_mem_sources {id : Nat} {f : File} {e : ElementRef × Spot}
    (h : e ∈ f.sources id) : e.1.file = id := by
  obtain ⟨entry, -, rfl⟩ := List.mem_map.mp h
  rfl

namespace ApiSet

def sources (s : ApiSet) : List (ElementRef × Spot) :=
  s.numbered.flatMap fun (id, f) => f.sources id

/-- The addresses of one file are those of its listing. -/
theorem filter_sources (s : ApiSet) {id : Nat} {f : File} (hf : s.file? id = some f) :
    s.sources.filter (fun e => e.1.file = id) = f.sources id := by
  have hfold (files : List File) (first : Nat) (hle : first ≤ id)
      (hget : files[id - first]? = some f) :
      (((files.zipIdx first).map fun e => (e.2, e.1)).flatMap fun e => e.2.sources e.1).filter
        (fun e => e.1.file = id) = f.sources id := by
    induction files generalizing first with
    | nil => simp at hget
    | cons g rest ih =>
      rw [List.zipIdx_cons, List.map_cons, List.flatMap_cons, List.filter_append]
      by_cases heq : first = id
      · subst heq
        obtain rfl : g = f := by simpa using hget
        rw [List.filter_eq_self.mpr fun e he => by simpa using File.file_of_mem_sources he,
          List.filter_eq_nil_iff.mpr fun e he => ?_, List.append_nil]
        obtain ⟨⟨n, h⟩, hmem, he⟩ := List.mem_flatMap.mp he
        obtain ⟨⟨_, _⟩, hzip, hswap⟩ := List.mem_map.mp hmem
        cases hswap
        have hlater := List.le_snd_of_mem_zipIdx hzip
        have hfile := File.file_of_mem_sources he
        simp only [decide_eq_true_eq]
        omega
      · rw [List.filter_eq_nil_iff.mpr fun e he => ?_, List.nil_append]
        · refine ih (first + 1) (by omega) ?_
          obtain ⟨n, hn⟩ : ∃ n, id - first = n + 1 := ⟨id - first - 1, by omega⟩
          rw [hn, List.getElem?_cons_succ] at hget
          rwa [show id - (first + 1) = n by omega]
        · simpa [File.file_of_mem_sources he] using heq
  exact hfold s.files 0 (Nat.zero_le id) hf

theorem file?_addFile (s : ApiSet) (f : File) :
    (s.addFile f).1.file? (s.addFile f).2 = some f := by
  rw [addFile]
  split
  · next id hid =>
    obtain ⟨hlt, -⟩ := List.findIdx?_eq_some_iff_getElem.mp hid
    simp [file?, hlt]
  · simp [file?]

/-- Every element of a file of the set is listed once, and what is found at the address of each
listed element is that element. -/
structure Enumerates (s : ApiSet) (id : Nat) : Prop where
  once : ∀ p, (s.at? id p).isSome → s.sources.countP (fun e => e.1.file = id ∧ e.2 = p) = 1
  leads : ∀ ref p, (ref, p) ∈ s.sources → ref.file = id → s.spotOf ref = some p

theorem enumerates_iff_enumerated {s : ApiSet} {id : Nat} {f : File} (hf : s.file? id = some f) :
    s.Enumerates id ↔ f.Enumerated := by
  have hfilter := s.filter_sources hf
  have hcount (p : Spot) : s.sources.countP (fun e => e.1.file = id ∧ e.2 = p) =
      (f.listing.map Prod.fst).count p := by
    have hboth : s.sources.countP (fun e => e.1.file = id ∧ e.2 = p) =
        (s.sources.filter fun e => e.1.file = id).countP fun e => e.2 = p := by
      rw [List.countP_filter]
      congr 1
      funext e
      simp [Bool.and_comm]
    rw [hboth, hfilter, File.sources, List.countP_map, List.count, List.countP_map]
    congr 1
  have hmem (ref : ElementRef) (p : Spot) : (ref, p) ∈ s.sources ∧ ref.file = id ↔
      ∃ e ∈ f.listing, ref = ⟨id, e.2.kind, e.2.info.fqsen⟩ ∧ p = e.1 := by
    have h : (ref, p) ∈ s.sources.filter (fun e => e.1.file = id) ↔
        (ref, p) ∈ s.sources ∧ ref.file = id := by simp
    rw [← h, hfilter, File.sources, List.mem_map]
    simp only [Prod.mk.injEq, eq_comm]
  have hspot (e : Spot × Item) : s.spotOf ⟨id, e.2.kind, e.2.info.fqsen⟩ =
      f.spotOf e.2.kind e.2.info.fqsen := by rw [spotOf, hf, Option.bind_some]
  constructor
  · rintro ⟨honce, hleads⟩
    refine ⟨fun p hp => ?_, fun e he => ?_⟩
    · rw [← hcount]
      exact honce p (by rwa [at?, hf])
    · obtain ⟨hsource, hid⟩ := (hmem _ _).mpr ⟨e, he, rfl, rfl⟩
      rw [← hspot]
      exact hleads _ _ hsource hid
  · rintro ⟨honce, hleads⟩
    refine ⟨fun p hp => ?_, fun ref p hsource hid => ?_⟩
    · rw [hcount]
      rw [at?, hf] at hp
      exact honce p hp
    · obtain ⟨e, he, rfl, rfl⟩ := (hmem ref p).mp ⟨hsource, hid⟩
      rw [hspot]
      exact hleads e he

/-- A file as it is read, added to a set, is enumerated well exactly if its class-likes of one name
have no members and no constant outside them has the name of a member. -/
theorem enumerates_addFile_iff {f : File} (hf : f.Reflected) (s : ApiSet) :
    (s.addFile f).1.Enumerates (s.addFile f).2 ↔ f.Unshared ∧ f.ConstantsOutside := by
  rw [enumerates_iff_enumerated (file?_addFile s f), File.enumerated_iff hf.asRead.keyed]

/-- A class and an interface of one name, of which each has a method. -/
def alternatives : SourceText where
  path := "a.php"
  content := "<?php if (X) \x7b class A \x7b function f() \x7b\x7d \x7d \x7d else \x7b interface A \x7b function g(); \x7d \x7d"

/-- The file of the alternatives is not enumerated well, whatever set it is added to: the method of
the class is listed twice. -/
theorem enumerates_addFile_iff_alternatives :
    ∃ f, alternatives.read = .ok f ∧ ∀ s : ApiSet, ¬ (s.addFile f).1.Enumerates (s.addFile f).2 := by
  have hread : (alternatives.read.toOption.bind fun f =>
      if (f.topItem? .interface "\\A").isSome then f.at? (.member .class "\\A" .method "f")
      else none).isSome := by
    decide +kernel
  cases hf : alternatives.read with
  | error e => simp [hf, Except.toOption] at hread
  | ok f =>
    refine ⟨f, rfl, fun s h => ?_⟩
    obtain ⟨hunshared, -⟩ := (enumerates_addFile_iff ⟨alternatives, f, hf, rfl⟩ s).mp h
    simp only [hf, Except.toOption, Option.bind_some] at hread
    split at hread
    · next hother =>
      obtain ⟨method, hmethod⟩ := Option.isSome_iff_exists.mp hread
      obtain ⟨members, hmembers, -⟩ := Option.bind_eq_some_iff.mp hmethod
      have hclass := (File.isSome_topItem?_of_membersIn? hmembers).2
      rw [hunshared "\\A" .class .interface (by decide) rfl rfl hclass hother .method "f"] at hread
      simp at hread
    · simp at hread

end ApiSet

end ApiDoc
