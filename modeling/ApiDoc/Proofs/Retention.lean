import ApiDoc.Proofs.Exclusion
import ApiDoc.Proofs.Inverse

/-!
# What the filter must leave

The filter removes elements by their addresses, members through the first class-like that has the
name of their owner. Names can be shared: between kinds, between files, and by constants that are
called like members. Main statement: as long as no two class-likes of one file share a name, no
removal hits an element that the settings allow, unless it stands in a class-like that they do not
allow.
-/

namespace ApiDoc

namespace File

/-- Class-likes with different keys have different names. -/
theorem singleNamed_of_nodup {f : File}
    (h : (f.classes.keys ++ (f.interfaces.keys ++ f.traits.keys)).Nodup) : f.SingleNamed := by
  have hkey {α : Type} {m : NameMap α} {key : String} {value : α} (hm : m.get? key = some value) :
      key ∈ m.keys := NameMap.mem_keys_iff.mpr ⟨_, hm⟩
  obtain ⟨-, hlater, hclasses⟩ := List.nodup_append.mp h
  obtain ⟨-, -, hinterfaces⟩ := List.nodup_append.mp hlater
  have hclass {key : String} (hc : key ∈ f.classes.keys) :
      key ∉ f.interfaces.keys ∧ key ∉ f.traits.keys :=
    ⟨fun hi => hclasses key hc key (List.mem_append_left _ hi) rfl,
      fun ht => hclasses key hc key (List.mem_append_right _ ht) rfl⟩
  have hinterface {key : String} (hi : key ∈ f.interfaces.keys) : key ∉ f.traits.keys :=
    fun ht => hinterfaces key hi key ht rfl
  intro key k l hk hl hsome hother
  cases k <;> simp only [ElementKind.isContainer, Bool.false_eq_true] at hk <;>
    cases l <;> simp only [ElementKind.isContainer, Bool.false_eq_true, reduceCtorEq] at hl ⊢ <;>
    simp only [topItem?, Option.isSome_map, Option.isSome_iff_exists] at hsome hother <;>
    obtain ⟨a, ha⟩ := hsome <;> obtain ⟨b, hb⟩ := hother
  · exact (hclass (hkey ha)).1 (hkey hb)
  · exact (hclass (hkey ha)).2 (hkey hb)
  · exact (hclass (hkey hb)).1 (hkey ha)
  · exact hinterface (hkey ha) (hkey hb)
  · exact (hclass (hkey hb)).2 (hkey ha)
  · exact hinterface (hkey hb) (hkey ha)

/-- Where class-likes do not share names, every member is listed. -/
theorem SingleNamed.lists {f : File} (hf : f.SingleNamed) {p : Spot} {item : Item}
    (h : f.at? p = some item) : f.Lists p := by
  cases p with
  | top kind key => trivial
  | member owner ownerKey kind key =>
    obtain ⟨members, hmembers, -⟩ := Option.bind_eq_some_iff.mp h
    obtain ⟨hcontainer, hsome⟩ := isSome_topItem?_of_membersIn? hmembers
    obtain ⟨k, hk⟩ := exists_ownerKind? hcontainer hsome
    obtain ⟨hother, hsomeOther⟩ := ownerKind?_eq_some hk
    obtain rfl := hf ownerKey owner k hcontainer hother hsome hsomeOther
    exact hk

end File

namespace Compile

/-- A class-like of the name, in whatever file, has a member tagged for the API. -/
def HasApiMember (s : ApiSet) (key : String) : Prop :=
  ∃ id owner kind name member, s.at? id (.member owner key kind name) = some member ∧
    member.tags.contains apiTag = true

/-- What the settings allow: the declared visibility if there is one, the internal tag only where
that is allowed and, in API mode, the tag for it or a class-like with a member that has this tag. -/
structure Allowed (filter : VisibilityFilter) (s : ApiSet) (item : Item) : Prop where
  visibility : ∀ v, item.visibility = some v → filter.allows v = true
  internal : filter.allowsInternal = true ∨ item.tags.contains internalTag = false
  api : filter.isApiOnly = true → item.tags.contains apiTag = true ∨
    item.kind.isContainer = true ∧ HasApiMember s item.info.fqsen.text

theorem mem_present_of_member {s : ApiSet} (hs : s.Keyed) (hsingle : s.SingleNamed) {id : Nat}
    {owner kind : ElementKind} {ownerKey key : String} {member : Item}
    (h : s.at? id (.member owner ownerKey kind key) = some member) :
    (⟨id, member.kind, member.info.fqsen⟩, member) ∈ s.present ∧
      member.info.fqsen.owner? = some ⟨ownerKey⟩ := by
  obtain ⟨f, hf, hat⟩ := Option.bind_eq_some_iff.mp h
  obtain ⟨hkind, hthrough, howner, hname⟩ := hs id f hf _ member hat
  have hlists := (hsingle id f hf).lists hat
  have hspot : f.spotOf kind member.info.fqsen = some (.member owner ownerKey kind key) :=
    (File.spotOf_eq_member_iff hthrough howner).mpr ⟨⟨hlists, rfl⟩, rfl, hname.symm⟩
  refine ⟨ApiSet.mem_present_iff.mpr ⟨?_, ?_⟩, howner⟩
  · exact ApiSet.mem_allElements_iff.mpr ⟨f, hf, (hs id f hf).mem_declared hat hlists⟩
  · rw [ApiSet.item?, hf, Option.bind_some, File.item?_eq, hkind, hspot, Option.bind_some, hat]

section

variable {filter : VisibilityFilter} {s : ApiSet} (hs : s.Keyed) (hsingle : s.SingleNamed)
include hs hsingle

theorem isKept_of_allowed {ref : ElementRef} {item : Item} (h : Allowed filter s item)
    (hkind : ref.kind = item.kind)
    (hname : item.kind.isContainer = true → ref.fqsen = item.info.fqsen) :
    isKept filter (apiOwners s.present) ref item = true := by
  rw [isKept, Bool.and_eq_true]
  refine ⟨isVisible_iff.mpr ⟨h.visibility, h.internal⟩, ?_⟩
  cases hmode : filter.isApiOnly with
  | false => rfl
  | true =>
    rcases h.api hmode with htag | ⟨hcontainer, id, owner, kind, key, member, hmember, htag⟩
    · rw [htag]
      rfl
    · obtain ⟨hpresent, howner⟩ := mem_present_of_member hs hsingle hmember
      have hmem : item.info.fqsen ∈ apiOwners s.present :=
        mem_apiOwners_iff.mpr ⟨_, hpresent, htag, howner⟩
      rw [hkind, hcontainer, hname hcontainer, List.contains_iff_mem.mpr hmem]
      exact Bool.or_true _

/-- No address on the list of the filter leads to what the settings allow. -/
theorem spotOf_ne_of_allowed {id : Nat} {p : Spot} {item : Item} (hi : s.at? id p = some item)
    (h : Allowed filter s item) {ref : ElementRef} (href : ref ∈ doomed filter s.present)
    (hid : ref.file = id) : s.spotOf ref ≠ some p := by
  subst hid
  intro hleads
  rcases exists_of_mem_foldl_condemn href with hnone | ⟨other, hother, hgoes⟩
  · simp at hnone
  · have hfound := (ApiSet.mem_present_iff.mp hother).2
    rw [ApiSet.item?_eq, hleads, Option.bind_some, hi] at hfound
    obtain rfl := Option.some.inj hfound
    obtain ⟨hkind, hname⟩ := kind_eq_of_spotOf hs hleads hi
    simp [isKept_of_allowed hs hsingle h hkind hname] at hgoes

end

/-- What the settings allow is left at its spot, in a set of files as they were read, also after
steps that retouch it; a member, if they allow its class-like as well. -/
theorem exists_left_of_allowed {s t : ApiSet} (hs : s.Fresh) (hsingle : s.SingleNamed)
    (ht : s.Retouch (fun _ => ()) t) (settings : Settings) {id : Nat} {p : Spot} {item : Item}
    (hi : t.at? id p = some item) (hallowed : Allowed settings.visibility t item)
    (hholder : ∀ q holder, p.holder? = some q → t.at? id q = some holder →
      Allowed settings.visibility t holder) :
    ∃ new, (filterSet settings t).state.at? id p = some new ∧ new.outline = item.outline := by
  have hkeyed := ht.keyed hs.keyed
  have hsame := hsingle.retouch ht
  -- the class-like stays, by the same argument: it stands in none itself
  have hstays (q : Spot) (hq : p.holder? = some q) :
      ((filterSet settings t).state.at? id q).isSome := by
    obtain ⟨f, hf, hat⟩ := Option.bind_eq_some_iff.mp hi
    have hsome : (t.at? id q).isSome := by
      rw [ApiSet.at?, hf]
      exact File.isSome_holder hq (by rw [hat]; rfl)
    obtain ⟨holder, hfound⟩ := Option.isSome_iff_exists.mp hsome
    refine (isSome_filterSet_iff settings t id q).mpr ⟨hsome, fun r hr => ?_, fun ref href hid => ?_⟩
    · cases p <;> simp only [Spot.holder?, Option.some.injEq, reduceCtorEq] at hq
      subst hq
      simp [Spot.holder?] at hr
    · exact spotOf_ne_of_allowed hkeyed hsame hfound (hholder q holder hq hfound) href hid
  have hleft := (isSome_filterSet_iff settings t id p).mpr
    ⟨by rw [hi]; rfl, hstays, fun ref href hid =>
      spotOf_ne_of_allowed hkeyed hsame hi hallowed href hid⟩
  obtain ⟨new, hnew⟩ := Option.isSome_iff_exists.mp hleft
  obtain ⟨old, hold, houtline, -⟩ :=
    exists_of_filterSet settings t hkeyed (unlinkedAway_of_fresh hs ht) hnew
  cases hi.symm.trans hold
  exact ⟨new, hnew, houtline.symm⟩

/-- A class of which one property is for the API, between a constant and an interface of its name. -/
def crossedNames : ApiSet :=
  .ofSources [⟨"a.php", "<?php /** @internal */ const Foo = 1; " ++
      "class Foo \x7b /** @api */ public $x; private $y; \x7d"⟩,
    ⟨"b.php", "<?php interface Foo \x7b function f(); \x7d"⟩]

/-- The property is left, although the constant and the interface go. -/
theorem exists_left_of_allowed_crossed_names :
    crossedNames.Fresh ∧ crossedNames.SingleNamed ∧
      ∃ item new, crossedNames.at? 0 (.member .class "\\Foo" .property "x") = some item ∧
        Allowed ⟨VisibilityFilter.api ||| VisibilityFilter.publicFlag⟩ crossedNames item ∧
        (filterSet { visibility := ⟨VisibilityFilter.api ||| VisibilityFilter.publicFlag⟩ }
          crossedNames).state.at? 0 (.member .class "\\Foo" .property "x") = some new ∧
        new.outline = item.outline := by
  -- one evaluation, so that the sources are read once
  obtain ⟨hkeys, hproperty, hclass⟩ :
      (∀ f ∈ crossedNames.files,
        (f.classes.keys ++ (f.interfaces.keys ++ f.traits.keys)).Nodup) ∧
      (crossedNames.at? 0 (.member .class "\\Foo" .property "x")).map
        (fun item => (item.visibility, marks item)) = some (some .public, false, true) ∧
      (crossedNames.at? 0 (.top .class "\\Foo")).map
        (fun item => (item.kind, item.info.fqsen, item.visibility, marks item)) =
          some (.class, ⟨"\\Foo"⟩, none, false, false) := by
    decide +kernel
  have hsingle : crossedNames.SingleNamed :=
    fun id f hf => File.singleNamed_of_nodup (hkeys f (List.mem_of_getElem? hf))
  obtain ⟨item, hitem, heq⟩ := Option.map_eq_some_iff.mp hproperty
  obtain ⟨hvisible, hinternal, htag⟩ : item.visibility = some .public ∧
      item.tags.contains internalTag = false ∧ item.tags.contains apiTag = true := by
    simpa [marks] using heq
  have hallowed : Allowed ⟨VisibilityFilter.api ||| VisibilityFilter.publicFlag⟩ crossedNames
      item := by
    refine ⟨fun v hv => ?_, .inr hinternal, fun _ => .inl htag⟩
    obtain rfl : .public = v := Option.some.inj (hvisible.symm.trans hv)
    decide
  obtain ⟨new, hnew, houtline⟩ := exists_left_of_allowed (ApiSet.fresh_ofSources _) hsingle
    (.refl crossedNames) { visibility := ⟨VisibilityFilter.api ||| VisibilityFilter.publicFlag⟩ }
    hitem hallowed fun q holder hq hholder => by
      obtain rfl := Option.some.inj hq
      rw [hholder] at hclass
      obtain ⟨hkind, hname, hnone, hplain, -⟩ : holder.kind = .class ∧
          holder.info.fqsen = ⟨"\\Foo"⟩ ∧ holder.visibility = none ∧
          holder.tags.contains internalTag = false ∧ holder.tags.contains apiTag = false := by
        simpa [marks] using hclass
      refine ⟨fun v hv => by simp [hnone] at hv, .inr hplain, fun _ => .inr ⟨by rw [hkind]; rfl, ?_⟩⟩
      rw [hname]
      exact ⟨0, .class, .property, "x", item, hitem, htag⟩
  exact ⟨ApiSet.fresh_ofSources _, hsingle, item, new, hitem, hallowed, hnew, houtline⟩

end Compile

end ApiDoc
