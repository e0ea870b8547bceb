import ApiDoc.Proofs.BackLinks
import ApiDoc.Proofs.Listing
import ApiDoc.Proofs.Unlinking

/-!
# Uses and back links

In files without two class-likes of one name, an address that leads to an element after the filter
led to it before. So the filter tears down uses and back links alike, and what is left is mirrored.
Main statement: uses and back links are inverse to each other exactly if every use is between
elements under their own names (`ApiSet.Straight`), and they always are where no constant outside
class-likes has the name of a member. The address of such a constant leads to the member.
-/

namespace ApiDoc

/-! ### Class-likes of one name -/

/-- No two class-likes of the file have one name. -/
def File.SingleNamed (f : File) : Prop :=
  ∀ key k l, k.isContainer = true → l.isContainer = true → (f.topItem? k key).isSome →
    (f.topItem? l key).isSome → k = l

def ApiSet.SingleNamed (s : ApiSet) : Prop := ∀ id f, s.file? id = some f → f.SingleNamed

namespace File

/-- Where class-likes do not share names, fewer of them do not make an address lead elsewhere. -/
theorem SingleNamed.spotOf_of_reduces {f g : File} (hf : f.SingleNamed) (h : f.Reduces g)
    {kind : ElementKind} {fqsen : Fqsen} {p : Spot} (hg : g.spotOf kind fqsen = some p) :
    f.spotOf kind fqsen = some p := by
  cases hthrough : throughOwner kind fqsen with
  | false =>
    rw [spotOf_of_not_throughOwner _ hthrough] at hg ⊢
    exact hg
  | true =>
    obtain ⟨owner, k, howner, hk, rfl⟩ := spotOf_eq_member hthrough hg
    obtain ⟨hcontainer, hsome⟩ := ownerKind?_eq_some hk
    obtain ⟨l, hl⟩ := exists_ownerKind? hcontainer (h.isSome_topItem? hsome)
    obtain ⟨hother, hsomeOther⟩ := ownerKind?_eq_some hl
    obtain rfl := hf _ k l hcontainer hother (h.isSome_topItem? hsome) hsomeOther
    exact (spotOf_eq_member_iff hthrough howner).mpr ⟨⟨hl, rfl⟩, rfl, rfl⟩

end File

theorem ApiSet.SingleNamed.retouch {β : Type} {view : Item → β} {s t : ApiSet}
    (hs : s.SingleNamed) (ht : s.Retouch view t) : t.SingleNamed := by
  intro id g hg key k l hk hl hsome hother
  obtain ⟨f, hf, hfg⟩ := ht.exists_file? hg
  have hsame (k : ElementKind) : (g.topItem? k key).isSome = (f.topItem? k key).isSome :=
    hfg.isSome_at? (.top k key)
  exact hs id f hf key k l hk hl (hsame k ▸ hsome) (hsame l ▸ hother)

namespace Compile

/-! ### The filter -/

section Filter

variable (settings : Settings) {v : ApiSet}

/-- An address leads after the filter only where it led before. -/
theorem spotOf_of_filterSet (hv : v.SingleNamed) {ref : ElementRef} {p : Spot}
    (h : (filterSet settings v).state.spotOf ref = some p) : v.spotOf ref = some p := by
  have hstart := retouch_filterStart v (fun _ => ()) settings
  rw [state_filterSet, (retouch_unlinkRemoved _).1.spotOf_eq,
    (retouch_pruned_settled settings v).spotOf_eq] at h
  obtain ⟨g, hg, hspot⟩ := Option.bind_eq_some_iff.mp h
  obtain ⟨f, hf, hfg⟩ := (reduces_shown settings v).exists_file? hg
  rw [← hstart.spotOf_eq, ApiSet.spotOf, hf]
  exact (hv.retouch hstart ref.file f hf).spotOf_of_reduces hfg hspot

/-- What an address leads to after the filter, and what it led to before. -/
theorem exists_item?_of_filterSet (hsingle : v.SingleNamed) (hv : v.Keyed) (haway : UnlinkedAway v)
    {ref : ElementRef} {new : Item} (h : (filterSet settings v).state.item? ref = some new) :
    ∃ old, v.item? ref = some old ∧ old.outline = new.outline ∧
      ∀ name, new.tags.links name =
        (old.tags.links name).filter (filterSet settings v).state.resolves := by
  rw [ApiSet.item?_eq] at h
  obtain ⟨p, hp, hat⟩ := Option.bind_eq_some_iff.mp h
  obtain ⟨old, hold, houtline, -, hlinks⟩ := exists_of_filterSet settings v hv haway hat
  refine ⟨old, ?_, houtline, hlinks⟩
  rw [ApiSet.item?_eq, spotOf_of_filterSet settings hsingle hp, Option.bind_some, hold]

/-- The filter keeps a set mirrored: a back link is left with the use that it belongs to. -/
theorem mirrored_filterSet (hsingle : v.SingleNamed) (hv : v.Keyed) (haway : UnlinkedAway v)
    (h : v.Mirrored) : (filterSet settings v).state.Mirrored := by
  intro id p new hnew
  obtain ⟨old, hold, -, -, hlinks⟩ := exists_of_filterSet settings v hv haway hnew
  obtain ⟨hnodup, hmem⟩ := h id p old hold
  rw [Item.usedBy, hlinks]
  refine ⟨hnodup.filter _, fun target => ?_⟩
  rw [List.mem_filter, hmem]
  constructor
  · rintro ⟨⟨user, used, item, rfl, ⟨hlookup, hitem⟩, huse, hid, hspot⟩, hresolves⟩
    have hsome := hresolves
    rw [ApiSet.resolves_element] at hsome
    obtain ⟨found, hfound⟩ := Option.isSome_iff_exists.mp hsome
    obtain ⟨before, hbefore, -, hfoundLinks⟩ :=
      exists_item?_of_filterSet settings hsingle hv haway hfound
    cases hitem.symm.trans hbefore
    subst hid
    have hleads := spotOf_filterSet settings v hspot (by rw [hnew]; rfl)
    have hused : (filterSet settings v).state.resolves (.element used) = true := by
      rw [ApiSet.resolves_element, ApiSet.item?_eq, hleads, Option.bind_some, hnew]
      rfl
    refine ⟨user, used, found, rfl, ⟨?_, hfound⟩, ?_, rfl, hleads⟩
    · rw [ApiSet.lookup] at hlookup ⊢
      rw [lookupIn_filterSet, hlookup, Option.filter_eq_some_iff]
      exact ⟨rfl, hresolves⟩
    · rw [Item.uses, hfoundLinks]
      exact List.mem_filter.mpr ⟨huse, hused⟩
  · rintro ⟨user, used, found, rfl, ⟨hlookup, hfound⟩, huse, hid, hspot⟩
    obtain ⟨item, hitem, -, hfoundLinks⟩ :=
      exists_item?_of_filterSet settings hsingle hv haway hfound
    rw [ApiSet.lookup, lookupIn_filterSet, Option.filter_eq_some_iff] at hlookup
    rw [Item.uses, hfoundLinks] at huse
    exact ⟨⟨user, used, item, rfl, ⟨hlookup.1, hitem⟩, (List.mem_filter.mp huse).1, hid,
      spotOf_of_filterSet settings hsingle hspot⟩, hlookup.2⟩

end Filter

end Compile

/-! ### Uses between elements under their own names -/

namespace ApiSet

/-- The index of elements has the address under the name of the element that it leads to. -/
def Named (s : ApiSet) (ref : ElementRef) (item : Item) : Prop :=
  s.Entry ref item ∧ item.info.fqsen = ref.fqsen

/-- Uses and back links are inverse to each other: among indexed elements one says to use another
exactly if that one points back, and then once; and there are no other back links. -/
structure Inverse (s : ApiSet) : Prop where
  uses_iff : ∀ user used a b, s.Named user a → s.Named used b →
    (.element used ∈ a.uses ↔ .element user ∈ b.usedBy)
  once : ∀ user used a b, s.Named user a → s.Named used b → .element user ∈ b.usedBy →
    b.usedBy.count (.element user) = 1
  of_usedBy : ∀ id p b, s.at? id p = some b → ∀ target ∈ b.usedBy,
    ∃ user used a, target = .element user ∧ s.Named user a ∧ s.Named used b ∧ used.file = id ∧
      s.spotOf used = some p ∧ .element used ∈ a.uses

/-- Every use is by an element under its own name, of an element that is used under its own name. -/
def Straight (s : ApiSet) : Prop :=
  ∀ user used a b, s.Entry user a → .element used ∈ a.uses → s.item? used = some b →
    a.info.fqsen = user.fqsen ∧ ∃ own, s.Named own b ∧ own.file = used.file ∧
      s.spotOf own = s.spotOf used ∧ .element own ∈ a.uses

theorem Named.ref_eq {s : ApiSet} {ref other : ElementRef} {item : Item} (h : s.Named ref item)
    (hother : s.Named other item) : ref = other := by
  have hname : ref.fqsen = other.fqsen := h.2.symm.trans hother.2
  have hlookup := h.1.1
  rw [hname, hother.1.1] at hlookup
  exact (Target.element.inj (Option.some.inj hlookup)).symm

theorem Mirrored.inverse_iff {s : ApiSet} (hs : s.Mirrored) : s.Inverse ↔ s.Straight := by
  constructor
  · intro h user used a b hentry huse hitem
    have hfound := hitem
    rw [item?_eq] at hfound
    obtain ⟨p, hspot, hat⟩ := Option.bind_eq_some_iff.mp hfound
    have hback : .element user ∈ b.usedBy :=
      ((hs used.file p b hat).2 _).mpr ⟨user, used, a, rfl, hentry, huse, rfl, hspot⟩
    obtain ⟨_, own, found, heq, huser, hown, hfile, hleads, hmem⟩ :=
      h.of_usedBy used.file p b hat _ hback
    cases heq
    cases hentry.2.symm.trans huser.1.2
    exact ⟨huser.2, own, hown, hfile, hleads.trans hspot.symm, hmem⟩
  · intro h
    refine ⟨fun user used a b huser hused => ?_, fun user used a b huser hused hmem => ?_,
      fun id p b hat target hmem => ?_⟩
    · have hfound := hused.1.2
      rw [item?_eq] at hfound
      obtain ⟨p, hspot, hat⟩ := Option.bind_eq_some_iff.mp hfound
      rw [(hs used.file p b hat).2]
      constructor
      · intro huse
        exact ⟨user, used, a, rfl, huser.1, huse, rfl, hspot⟩
      · rintro ⟨_, other, found, heq, hentry, huse, hfile, hleads⟩
        cases heq
        cases hentry.2.symm.trans huser.1.2
        have hother : s.item? other = some b := by rw [item?_eq, hleads, Option.bind_some, hfile, hat]
        obtain ⟨-, own, hown, -, -, hmem⟩ := h user other a b hentry huse hother
        rwa [hused.ref_eq hown]
    · have hfound := hused.1.2
      rw [item?_eq] at hfound
      obtain ⟨p, -, hat⟩ := Option.bind_eq_some_iff.mp hfound
      exact List.count_eq_one_of_mem (hs used.file p b hat).1 hmem
    · obtain ⟨user, used, a, rfl, hentry, huse, rfl, hspot⟩ := ((hs id p b hat).2 target).mp hmem
      have hitem : s.item? used = some b := by rw [item?_eq, hspot, Option.bind_some, hat]
      obtain ⟨hname, own, hown, hfile, hleads, hmem⟩ := h user used a b hentry huse hitem
      exact ⟨user, own, a, rfl, ⟨hentry, hname⟩, hown, hfile, hleads.trans hspot, hmem⟩

end ApiSet

namespace Compile

/-- A listed address leads to an element of its name, where no constant outside class-likes has the
name of a member. -/
theorem fqsen_eq_of_mem_allElements {s : ApiSet} (hs : s.Keyed)
    (houtside : ∀ f ∈ s.files, f.ConstantsOutside) {ref : ElementRef} {item : Item}
    (href : ref ∈ s.allElements) (hitem : s.item? ref = some item) :
    item.info.fqsen = ref.fqsen := by
  obtain ⟨f, hf, hdeclared⟩ := ApiSet.mem_allElements_iff.mp href
  rw [← File.map_listing] at hdeclared
  obtain ⟨⟨p, listed⟩, hmem, heq⟩ := List.mem_map.mp hdeclared
  obtain ⟨hkind, hname⟩ := Prod.mk.inj heq
  have hkeyed := hs ref.file f hf
  have hleads := (File.forall_spotOf_listing_iff hkeyed).mpr
    (houtside f (List.mem_of_getElem? hf)) _ hmem
  dsimp only at hkind hname hleads
  rw [hkind, hname] at hleads
  rw [ApiSet.item?, hf, Option.bind_some, File.item?_eq, hleads, Option.bind_some,
    ((File.mem_listing_iff hkeyed).mp hmem).1] at hitem
  rw [← Option.some.inj hitem, hname]

theorem straight_filterSet (settings : Settings) {s v : ApiSet} (hs : s.Fresh)
    (hsingle : s.SingleNamed) (houtside : ∀ f ∈ s.files, f.ConstantsOutside)
    (h : Course settings s v) : (filterSet settings v).state.Straight := by
  have hkeyed := h.retouch.keyed hs.keyed
  have haway := unlinkedAway_of_fresh hs h.retouch
  have hlookup {ref : ElementRef}
      (href : (filterSet settings v).state.lookup ref.fqsen.text = some (.element ref)) :
      v.lookup ref.fqsen.text = some (.element ref) := by
    rw [ApiSet.lookup, lookupIn_filterSet, Option.filter_eq_some_iff] at href
    exact href.1
  have hname {ref : ElementRef} {item : Item}
      (hitem : (filterSet settings v).state.item? ref = some item)
      (hindexed : v.lookup ref.fqsen.text = some (.element ref)) : item.info.fqsen = ref.fqsen := by
    obtain ⟨mid, hmid, houtline, -⟩ :=
      exists_item?_of_filterSet settings (hsingle.retouch h.retouch) hkeyed haway hitem
    obtain ⟨old, hold, holdOutline, -⟩ := h.retouch.exists_item? hmid
    have hsame : old.info.fqsen = item.info.fqsen :=
      (Prod.mk.inj (Prod.mk.inj (holdOutline.trans houtline)).2).1
    rw [← hsame]
    exact fqsen_eq_of_mem_allElements hs.keyed houtside (h.listed hs hindexed).1 hold
  intro user used a b hentry huse hitem
  obtain ⟨mid, hmid, -, hlinks⟩ :=
    exists_item?_of_filterSet settings (hsingle.retouch h.retouch) hkeyed haway hentry.2
  rw [ApiSet.item?_eq] at hmid
  obtain ⟨p, -, hat⟩ := Option.bind_eq_some_iff.mp hmid
  have hkept := huse
  rw [Item.uses, hlinks] at hkept
  obtain ⟨hbefore, hresolves⟩ := List.mem_filter.mp hkept
  have hindexed := h.lookup_of_mem_uses hs hat hbefore
  refine ⟨hname hentry.2 (hlookup hentry.1), used, ⟨⟨?_, hitem⟩, hname hitem hindexed⟩, rfl, rfl,
    huse⟩
  rw [ApiSet.lookup] at hindexed
  rw [ApiSet.lookup, lookupIn_filterSet, hindexed, Option.filter_eq_some_iff]
  exact ⟨rfl, hresolves⟩

end Compile

/-- In a compiled project of files as they are read, of which none has two class-likes of one name,
uses and back links are inverse to each other exactly if all uses are straight, and always if no
constant outside class-likes has the name of a member. -/
theorem Compiler.inverse_iff_of_compile {services : Services} {p : Project} (hp : p.Fresh)
    (hsingle : ∀ s ∈ p.apiSets, s.SingleNamed)
    (h : (standard.compile services p).failure = none) :
    ∀ t ∈ (standard.compile services p).state.apiSets, (t.Inverse ↔ t.Straight) ∧
      ((∀ s ∈ p.apiSets, ∀ f ∈ s.files, f.ConstantsOutside) → t.Inverse) := by
  intro t ht
  obtain ⟨s, hs, v, hv, heq⟩ := Compile.exists_course h ht
  have hfresh := hp s hs
  have hmirrored : t.Mirrored := by
    rw [heq]
    exact Compile.mirrored_filterSet p.settings ((hsingle s hs).retouch hv.retouch)
      (hv.retouch.keyed hfresh.keyed) (Compile.unlinkedAway_of_fresh hfresh hv.retouch)
      (hv.mirrored hfresh)
  refine ⟨hmirrored.inverse_iff, fun houtside => hmirrored.inverse_iff.mpr ?_⟩
  rw [heq]
  exact Compile.straight_filterSet p.settings hfresh (hsingle s hs) (houtside s hs) hv

/-- Two classes that use each other, one of them twice. -/
def Project.mutual : Project :=
  .ofSources { markers := [] }
    [⟨"a.php", "<?php /** @uses B\n * @uses \\B */ class A {}"⟩,
      ⟨"b.php", "<?php /** @uses A */ class B {}"⟩]

theorem Compiler.inverse_iff_of_compile_mutual :
    (standard.compile ⟨.standard, .none⟩ .mutual).failure = none ∧
      ∀ t ∈ (standard.compile ⟨.standard, .none⟩ .mutual).state.apiSets, t.Inverse := by
  have hdone : (standard.compile ⟨.standard, .none⟩ .mutual).failure = none :=
    failure_standard Router.exists_page_standard rfl rfl
  have hplain : Project.mutual.apiSets.all fun s => s.files.all fun f =>
      f.interfaces.isEmpty && f.traits.isEmpty && f.constants.isEmpty := by
    decide +kernel
  have hempty {s : ApiSet} (hs : s ∈ Project.mutual.apiSets) {f : File} (hf : f ∈ s.files) :
      (f.interfaces.isEmpty ∧ f.traits.isEmpty) ∧ f.constants.isEmpty := by
    simpa using List.all_eq_true.mp (List.all_eq_true.mp hplain s hs) f hf
  have hnone {α : Type} {m : NameMap α} (h : m.isEmpty) (key : String) : m.get? key = none := by
    rw [NameMap.get?, List.isEmpty_iff.mp h]
    rfl
  refine ⟨hdone, fun t ht => (inverse_iff_of_compile (Project.fresh_ofSources _ _)
    (fun s hs id f hf key k l => ?_) hdone t ht).2 fun s hs f hf key item hitem => ?_⟩
  · obtain ⟨⟨hinterfaces, htraits⟩, -⟩ := hempty hs (List.mem_of_getElem? hf)
    have honly (kind : ElementKind) (hcontainer : kind.isContainer = true)
        (h : (f.topItem? kind key).isSome) : kind = .class := by
      cases kind with
      | «class» => rfl
      | interface => simp [File.topItem?, hnone hinterfaces] at h
      | trait => simp [File.topItem?, hnone htraits] at h
      | function | constant | method | property => simp [ElementKind.isContainer] at hcontainer
    intro hk hl hsome hother
    rw [honly k hk hsome, honly l hl hother]
  · simp [File.topItem?, hnone (hempty hs hf).2] at hitem

end ApiDoc
