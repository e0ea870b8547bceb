import ApiDoc.Proofs.Unlinking

/-!
# What the filter lets through

The filter decides about an element by the name of its address: it passes over members whose owner's
name is that of something that goes already, and in API mode it keeps class-likes by the names of
their members. So an element that the settings exclude can be left where names are shared. Main
statement: which ones are left, exactly.
-/

namespace ApiDoc

namespace Compile

/-! ### What the settings exclude -/

/-- What the settings exclude: a visibility that is not allowed, the internal tag where that is not
allowed and, in API mode, an element that lacks the tag for it, unless it is a class-like in which a
member with that tag was declared. -/
def Excluded (filter : VisibilityFilter) (s : ApiSet) (id : Nat) (p : Spot) (item : Item) : Prop :=
  (∃ v, item.visibility = some v ∧ filter.allows v = false) ∨
    (filter.allowsInternal = false ∧ item.tags.contains internalTag = true) ∨
    (filter.isApiOnly = true ∧ item.tags.contains apiTag = false ∧
      ∀ q member, q.holder? = some p → s.at? id q = some member →
        member.tags.contains apiTag = false)

/-- A class-like that shares its name with the owner of a listed element tagged for the API. -/
def Spared (filter : VisibilityFilter) (s : ApiSet) (item : Item) : Prop :=
  isVisible filter item = true ∧ item.kind.isContainer = true ∧
    ∃ e ∈ s.present, e.2.tags.contains apiTag = true ∧ e.1.fqsen.owner? = some item.info.fqsen

/-- An address before which the listing has an element that goes and has its owner's name. -/
def PassedOver (filter : VisibilityFilter) (s : ApiSet) (ref : ElementRef) : Prop :=
  ∃ pre item post, s.present = pre ++ (ref, item) :: post ∧ (∀ e ∈ pre, e.1 ≠ ref) ∧
    ∃ e ∈ pre, ref.fqsen.owner? = some e.1.fqsen ∧
      isKept filter (apiOwners s.present) e.1 e.2 = false

/-- How an excluded element gets past the filter: it is spared, or every listed address that leads
to it is passed over. -/
def Escapes (filter : VisibilityFilter) (s : ApiSet) (id : Nat) (p : Spot) (item : Item) : Prop :=
  Spared filter s item ∨ ∀ ref ∈ s.allElements, ref.file = id → s.spotOf ref = some p →
    PassedOver filter s ref

theorem excluded_congr {filter : VisibilityFilter} {s : ApiSet} {id : Nat} {p : Spot}
    {old new : Item} (houtline : old.outline = new.outline) (hmarks : marks old = marks new) :
    Excluded filter s id p old ↔ Excluded filter s id p new := by
  obtain ⟨-, -, hvisibility⟩ : old.kind = new.kind ∧ old.info.fqsen = new.info.fqsen ∧
      old.visibility = new.visibility := by simpa [Item.outline] using houtline
  obtain ⟨hinternal, hapi⟩ := Prod.mk.inj hmarks
  rw [Excluded, Excluded, hvisibility, hinternal, hapi]

section Kept

variable {filter : VisibilityFilter} {s : ApiSet}

theorem isVisible_iff {item : Item} :
    isVisible filter item = true ↔
      (∀ v, item.visibility = some v → filter.allows v = true) ∧
        (filter.allowsInternal = true ∨ item.tags.contains internalTag = false) := by
  simp [isVisible, Option.all_eq_true]

theorem mem_apiOwners_iff {present : List (ElementRef × Item)} {owner : Fqsen} :
    owner ∈ apiOwners present ↔
      ∃ e ∈ present, e.2.tags.contains apiTag = true ∧ e.1.fqsen.owner? = some owner := by
  rw [apiOwners, List.mem_filterMap]
  refine exists_congr fun e => and_congr_right fun _ => ?_
  dsimp only
  split
  · next h => simp [h]
  · next h => simp [h]

/-- Of what the settings exclude, the filter keeps what is spared. -/
theorem isKept_iff_spared {id : Nat} {p : Spot} {item : Item} {ref : ElementRef}
    (h : Excluded filter s id p item) (hkind : ref.kind = item.kind)
    (hname : item.kind.isContainer = true → ref.fqsen = item.info.fqsen) :
    isKept filter (apiOwners s.present) ref item = true ↔ Spared filter s item := by
  have hapi (hvisible : isVisible filter item = true) :
      filter.isApiOnly = true ∧ item.tags.contains apiTag = false := by
    obtain ⟨hallowed, hinternal⟩ := isVisible_iff.mp hvisible
    rcases h with ⟨v, hv, hnot⟩ | ⟨hnot, htag⟩ | ⟨hmode, htag, -⟩
    · simp [hallowed v hv] at hnot
    · simp [hnot, htag] at hinternal
    · exact ⟨hmode, htag⟩
  rw [isKept, Bool.and_eq_true, Spared, ← mem_apiOwners_iff]
  refine and_congr_right fun hvisible => ?_
  obtain ⟨hmode, htag⟩ := hapi hvisible
  rw [hkind, hmode, htag]
  simp only [Bool.not_true, Bool.or_self, Bool.false_or, Bool.and_eq_true, List.contains_iff_mem]
  refine and_congr_right fun hcontainer => ?_
  rw [hname hcontainer]

/-- An element of the listing stands in one place first. -/
theorem exists_first {ref : ElementRef} {item : Item} (h : (ref, item) ∈ s.present) :
    ∃ pre post, s.present = pre ++ (ref, item) :: post ∧ ∀ e ∈ pre, e.1 ≠ ref := by
  obtain ⟨pre, post, heq, hnot⟩ := List.eq_append_cons_of_mem h
  refine ⟨pre, post, heq, fun e he href => hnot ?_⟩
  obtain ⟨found, item'⟩ := e
  obtain rfl : found = ref := href
  have hother : (found, item') ∈ s.present := heq ▸ List.mem_append_left _ he
  have hsame := (ApiSet.mem_present_iff.mp h).2.symm.trans (ApiSet.mem_present_iff.mp hother).2
  rwa [Option.some.inj hsame]

/-- What is listed goes unless it is kept or passed over. -/
theorem mem_doomed_iff {ref : ElementRef} {item : Item} (h : (ref, item) ∈ s.present)
    (howner : ∀ owner, ref.fqsen.owner? = some owner → owner.owner? = none) :
    ref ∈ doomed filter s.present ↔
      isKept filter (apiOwners s.present) ref item = false ∧ ¬ PassedOver filter s ref := by
  have hsame {other : Item} (hother : (ref, other) ∈ s.present) : other = item :=
    Option.some.inj <|
      (ApiSet.mem_present_iff.mp hother).2.symm.trans (ApiSet.mem_present_iff.mp h).2
  constructor
  · intro hmem
    have hkept : isKept filter (apiOwners s.present) ref item = false := by
      rcases exists_of_mem_foldl_condemn hmem with hnone | ⟨other, hother, hkept⟩
      · simp at hnone
      · exact hsame hother ▸ hkept
    refine ⟨hkept, fun ⟨pre, other, post, heq, hfirst, e, he, hname, hgoes⟩ => ?_⟩
    obtain rfl : other = item := hsame (heq ▸ List.mem_append_right _ List.mem_cons_self)
    rw [doomed] at hmem
    generalize apiOwners s.present = owners at hmem hkept hgoes
    rw [heq, mem_foldl_condemn_iff hfirst hkept hname] at hmem
    exact hmem e.1 (mem_foldl_condemn_of_owner?_eq_none [] he hgoes (howner _ hname)) rfl
  · rintro ⟨hkept, hturn⟩
    cases hname : ref.fqsen.owner? with
    | none => exact mem_foldl_condemn_of_owner?_eq_none [] h hkept hname
    | some owner =>
      obtain ⟨pre, post, heq, hfirst⟩ := exists_first h
      have hfree (g : ElementRef) (hg : g ∈ pre.foldl (condemn filter (apiOwners s.present)) []) :
          g.fqsen ≠ owner := by
        rintro rfl
        rcases exists_of_mem_foldl_condemn hg with hnone | ⟨other, hother, hgoes⟩
        · simp at hnone
        · exact hturn ⟨pre, item, post, heq, hfirst, (g, other), hother, hname, hgoes⟩
      rw [doomed]
      generalize apiOwners s.present = owners at hkept hfree
      rw [heq]
      exact (mem_foldl_condemn_iff hfirst hkept hname).mpr hfree

end Kept

/-! ### What is left -/

section Left

variable (settings : Settings)

theorem isSome_filterSet (t : ApiSet) (id : Nat) (p : Spot) :
    ((filterSet settings t).state.at? id p).isSome = ((shown settings t).at? id p).isSome := by
  rw [state_filterSet, (retouch_unlinkRemoved _).1.isSome_at?,
    (retouch_pruned_settled settings t).isSome_at?]

/-- An element is left if its class-like is and no address on the list leads to it. -/
theorem isSome_filterSet_iff (t : ApiSet) (id : Nat) (p : Spot) :
    ((filterSet settings t).state.at? id p).isSome ↔
      (t.at? id p).isSome ∧
        (∀ q, p.holder? = some q → ((filterSet settings t).state.at? id q).isSome) ∧
        ∀ ref ∈ doomed settings.visibility t.present, ref.file = id → t.spotOf ref ≠ some p := by
  have hspot (ref : ElementRef) : (filterStart settings t).spotOf ref = t.spotOf ref :=
    (retouch_filterStart t (fun _ => ()) settings).spotOf_eq ref
  have hremoved := at?_removeElements
    (inTurn_doomed settings.visibility (filterStart settings t).present) (filterStart settings t, 0)
  have hgone (q : Spot) (ref : ElementRef) (href : ref ∈ doomed settings.visibility t.present)
      (hcovers : Covers t ref id q) : (shown settings t).at? id q = none := by
    refine (hremoved id q).1 ⟨ref, ?_, ?_⟩
    · rwa [present_filterStart]
    · rwa [Covers, hspot]
  simp only [isSome_filterSet]
  constructor
  · intro hsome
    obtain ⟨item, hitem⟩ := Option.isSome_iff_exists.mp hsome
    have hstart := (reduces_shown settings t).at?_eq hitem
    rw [at?_filterStart] at hstart
    refine ⟨by rw [hstart]; rfl, fun q hq => ?_, fun ref href hid hleads => ?_⟩
    · obtain ⟨f, hf, hat⟩ := Option.bind_eq_some_iff.mp hitem
      rw [ApiSet.at?, hf]
      exact File.isSome_holder hq (by rw [hat]; rfl)
    · rw [hgone p ref href ⟨hid, p, hleads, .inl rfl⟩] at hsome
      simp at hsome
  · rintro ⟨hsome, hholder, hfree⟩
    have hstays : (shown settings t).at? id p = (filterStart settings t).at? id p := by
      refine (hremoved id p).2 fun ref href hcovers => ?_
      obtain ⟨hid, q, hleads, hgoes⟩ := hcovers
      rw [present_filterStart] at href
      rw [hspot] at hleads
      rcases hgoes with rfl | hgoes
      · exact hfree ref href hid hleads
      · have := hholder q hgoes
        rw [hgone q ref href ⟨hid, q, hleads, .inl rfl⟩] at this
        simp at this
    rw [hstays, at?_filterStart, hsome]

end Left

/-! ### Addresses of a set that was read -/

/-- An address that leads to an element has its kind, and the name of a class-like. -/
theorem kind_eq_of_spotOf {s : ApiSet} (hs : s.Keyed) {ref : ElementRef} {p : Spot} {item : Item}
    (hp : s.spotOf ref = some p) (hi : s.at? ref.file p = some item) :
    ref.kind = item.kind ∧ (item.kind.isContainer = true → ref.fqsen = item.info.fqsen) := by
  obtain ⟨f, hf, hat⟩ := Option.bind_eq_some_iff.mp hi
  rw [ApiSet.spotOf, hf, Option.bind_some] at hp
  have hnames := hs ref.file f hf p item hat
  cases hthrough : File.throughOwner ref.kind ref.fqsen with
  | false =>
    rw [File.spotOf_of_not_throughOwner f hthrough] at hp
    cases hp
    obtain ⟨hkind, htext⟩ := hnames
    exact ⟨hkind.symm, fun _ => (Fqsen.eq_of_text_eq htext).symm⟩
  | true =>
    obtain ⟨owner, k, -, -, rfl⟩ := File.spotOf_eq_member hthrough hp
    obtain ⟨hkind, -⟩ := hnames
    refine ⟨hkind.symm, fun hcontainer => ?_⟩
    rw [hkind] at hcontainer
    cases hk : ref.kind <;> simp [hk, File.throughOwner, ElementKind.isContainer] at hthrough hcontainer

/-- An address that leads to an element leads through the class-like of its owner's name. -/
theorem exists_holder_of_spotOf {s t : ApiSet} (hs : s.Fresh) (ht : s.Retouch (fun _ => ()) t)
    {ref : ElementRef} {p : Spot} (hp : t.spotOf ref = some p) (hi : (t.at? ref.file p).isSome)
    {owner : Fqsen} (howner : ref.fqsen.owner? = some owner) :
    ∃ f kind holder, s.file? ref.file = some f ∧ f.topItem? kind owner.text = some holder ∧
      kind.isContainer = true := by
  rw [ht.spotOf_eq] at hp
  rw [ht.isSome_at?] at hi
  obtain ⟨item, hitem⟩ := Option.isSome_iff_exists.mp hi
  obtain ⟨f, hf, hat⟩ := Option.bind_eq_some_iff.mp hitem
  rw [ApiSet.spotOf, hf, Option.bind_some] at hp
  cases hthrough : File.throughOwner ref.kind ref.fqsen with
  | false =>
    rw [File.spotOf_of_not_throughOwner f hthrough] at hp
    cases hp
    obtain ⟨⟨-, htext⟩, -, hplain⟩ := (hs.asRead hf).top _ _ item hat
    have hnone : ref.fqsen.owner? = none := by
      by_cases hkind : ref.kind = .constant
      · rw [hkind] at hthrough
        have hmember : ref.fqsen.owner?.isSome = false := ref.fqsen.isSome_owner?.trans hthrough
        simpa using hmember
      · rw [← Fqsen.eq_of_text_eq htext]
        exact (hplain hkind).owner?_eq_none
    simp [hnone] at howner
  | true =>
    obtain ⟨found, k, hfound, hkind, rfl⟩ := File.spotOf_eq_member hthrough hp
    cases howner.symm.trans hfound
    obtain ⟨hcontainer, hsome⟩ := File.ownerKind?_eq_some hkind
    obtain ⟨holder, hholder⟩ := Option.isSome_iff_exists.mp hsome
    exact ⟨f, k, holder, hf, hholder, hcontainer⟩

/-- The owner's name in an address that leads to an element has no owner itself. -/
theorem owner?_owner?_of_spotOf {s t : ApiSet} (hs : s.Fresh) (ht : s.Retouch (fun _ => ()) t)
    {ref : ElementRef} {p : Spot} (hp : t.spotOf ref = some p) (hi : (t.at? ref.file p).isSome)
    {owner : Fqsen} (howner : ref.fqsen.owner? = some owner) : owner.owner? = none := by
  obtain ⟨f, kind, holder, hf, hholder, hcontainer⟩ := exists_holder_of_spotOf hs ht hp hi howner
  obtain ⟨⟨-, htext⟩, -, hplain⟩ := (hs.asRead hf).top _ _ holder hholder
  rw [← Fqsen.eq_of_text_eq htext]
  refine (hplain fun hk => ?_).owner?_eq_none
  simp [hk, ElementKind.isContainer] at hcontainer

/-! ### The elements that are left although the settings exclude them -/

/-- To what the settings exclude and what escapes no address on the list leads. -/
theorem escapes_iff {s t : ApiSet} (hs : s.Fresh) (ht : s.Retouch (fun _ => ()) t)
    {filter : VisibilityFilter} {id : Nat} {p : Spot} {item : Item} (hi : t.at? id p = some item)
    (hex : Excluded filter t id p item) :
    Escapes filter t id p item ↔
      ∀ ref ∈ doomed filter t.present, ref.file = id → t.spotOf ref ≠ some p := by
  have hlisted {ref : ElementRef} (href : ref ∈ t.allElements) (hid : ref.file = id)
      (hleads : t.spotOf ref = some p) :
      (isKept filter (apiOwners t.present) ref item = true ↔ Spared filter t item) ∧
        (ref ∈ doomed filter t.present ↔
          isKept filter (apiOwners t.present) ref item = false ∧ ¬ PassedOver filter t ref) := by
    subst hid
    have hpresent : (ref, item) ∈ t.present := by
      rw [ApiSet.mem_present_iff, ApiSet.item?_eq, hleads]
      exact ⟨href, hi⟩
    obtain ⟨hkind, hname⟩ := kind_eq_of_spotOf (ht.keyed hs.keyed) hleads hi
    exact ⟨isKept_iff_spared hex hkind hname, mem_doomed_iff hpresent fun _ howner =>
      owner?_owner?_of_spotOf hs ht hleads (by rw [hi]; rfl) howner⟩
  constructor
  · intro hescape ref href hid hleads
    rcases exists_of_mem_foldl_condemn href with hnone | ⟨other, hother, -⟩
    · simp at hnone
    · obtain ⟨hspared, hdoomed⟩ := hlisted (ApiSet.mem_present_iff.mp hother).1 hid hleads
      obtain ⟨hkept, hturn⟩ := hdoomed.mp href
      rcases hescape with hescape | hescape
      · simp [hspared.mpr hescape] at hkept
      · exact hturn (hescape ref (ApiSet.mem_present_iff.mp hother).1 hid hleads)
  · intro hfree
    by_cases hspare : Spared filter t item
    · exact .inl hspare
    · refine .inr fun ref href hid hleads => ?_
      obtain ⟨hspared, hdoomed⟩ := hlisted href hid hleads
      have hkept : isKept filter (apiOwners t.present) ref item = false := by
        rw [Bool.eq_false_iff]
        exact fun h => hspare (hspared.mp h)
      exact Classical.byContradiction fun hturn => hfree ref (hdoomed.mpr ⟨hkept, hturn⟩) hid hleads

/-- Of the elements that the settings exclude, those are left whose class-like is left and that
escape, in a set of files as they were read, also after steps that retouch it. -/
theorem exists_excluded_left_iff {s t : ApiSet} (hs : s.Fresh) (ht : s.Retouch (fun _ => ()) t)
    (settings : Settings) (id : Nat) (p : Spot) :
    (∃ item, (filterSet settings t).state.at? id p = some item ∧
        Excluded settings.visibility t id p item) ↔
      ∃ item, t.at? id p = some item ∧ Excluded settings.visibility t id p item ∧
        (∀ q, p.holder? = some q → ((filterSet settings t).state.at? id q).isSome) ∧
        Escapes settings.visibility t id p item := by
  have hkeyed := ht.keyed hs.keyed
  constructor
  · rintro ⟨new, hnew, hex⟩
    obtain ⟨item, hitem, houtline, hmarks, -⟩ :=
      exists_of_filterSet settings t hkeyed (unlinkedAway_of_fresh hs ht) hnew
    have hold := (excluded_congr houtline hmarks).mpr hex
    obtain ⟨-, hholder, hfree⟩ := (isSome_filterSet_iff settings t id p).mp (by rw [hnew]; rfl)
    exact ⟨item, hitem, hold, hholder, (escapes_iff hs ht hitem hold).mpr hfree⟩
  · rintro ⟨item, hitem, hex, hholder, hescape⟩
    have hleft := (isSome_filterSet_iff settings t id p).mpr
      ⟨by rw [hitem]; rfl, hholder, (escapes_iff hs ht hitem hex).mp hescape⟩
    obtain ⟨new, hnew⟩ := Option.isSome_iff_exists.mp hleft
    obtain ⟨old, hold, houtline, hmarks, -⟩ :=
      exists_of_filterSet settings t hkeyed (unlinkedAway_of_fresh hs ht) hnew
    cases hitem.symm.trans hold
    exact ⟨new, hnew, (excluded_congr houtline hmarks).mp hex⟩

/-- A class with a private property, behind an internal constant of the same name. -/
def namesakes : ApiSet :=
  .ofSources [⟨"a.php", "<?php /** @internal */ const Foo = 1; class Foo \x7b private $x; \x7d"⟩]

/-- The private property of the namesakes is left where only public members are allowed, since it is
passed over. -/
theorem exists_excluded_left_namesakes :
    ∃ item new, namesakes.at? 0 (.member .class "\\Foo" .property "x") = some item ∧
      Escapes ⟨VisibilityFilter.publicFlag⟩ namesakes 0 (.member .class "\\Foo" .property "x") item ∧
      (filterSet { visibility := ⟨VisibilityFilter.publicFlag⟩ } namesakes).state.at? 0
        (.member .class "\\Foo" .property "x") = some new ∧ new.visibility = some .private := by
  have hleft : ((filterSet { visibility := ⟨VisibilityFilter.publicFlag⟩ } namesakes).state.at? 0
      (.member .class "\\Foo" .property "x")).map Item.visibility = some (some .private) := by
    decide +kernel
  obtain ⟨new, hnew, hprivate⟩ := Option.map_eq_some_iff.mp hleft
  have hexcluded : Excluded ⟨VisibilityFilter.publicFlag⟩ namesakes 0
      (.member .class "\\Foo" .property "x") new := .inl ⟨.private, hprivate, by decide⟩
  obtain ⟨item, hitem, -, -, hescapes⟩ := (exists_excluded_left_iff (ApiSet.fresh_ofSources _)
    (.refl namesakes) { visibility := ⟨VisibilityFilter.publicFlag⟩ } 0 _).mp ⟨new, hnew, hexcluded⟩
  exact ⟨item, new, hitem, hescapes, hnew, hprivate⟩

end Compile

end ApiDoc
