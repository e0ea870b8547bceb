import ApiDoc.Proofs.Course
import Mathlib.Data.List.Induction

/-!
# Indexes of one kind as parts of the index of all elements

All indexes of elements are filled from one listing, and in each of them the last element of a name
stays. Names are looked up in the index of all elements, so the index of a kind should be the part
of it that holds this kind. Main statement: it holds that part, and nothing else exactly if no
element of the kind is superseded, that is, if the last element of its name is of the kind as well.
-/

namespace ApiDoc

/-- The entries of an index that are elements of one kind and no members. -/
def Index.part (kind : ElementKind) (i : Index) : Index :=
  i.filter fun _ t => t.element?.any fun ref => ref.kind = kind && !ref.fqsen.isMember

theorem Index.get?_part_iff {kind : ElementKind} {i : Index} {key : String} {target : Target} :
    (i.part kind).get? key = some target ↔
      i.get? key = some target ∧
        ∃ ref, target = .element ref ∧ ref.kind = kind ∧ ref.fqsen.isMember = false := by
  rw [Index.part, NameMap.get?_filter, Option.filter_eq_some_iff]
  refine and_congr_right fun _ => ?_
  cases target <;> simp [Target.element?]

namespace Compile

/-- The last element of its name in a list. -/
def IsLast (refs : List ElementRef) (ref : ElementRef) : Prop :=
  ∃ before behind, refs = before ++ ref :: behind ∧ ∀ r ∈ behind, r.fqsen ≠ ref.fqsen

/-- The last element of the name is of another kind. -/
def Superseded (refs : List ElementRef) (ref : ElementRef) : Prop :=
  ∃ last, IsLast refs last ∧ last.fqsen = ref.fqsen ∧ last.kind ≠ ref.kind

theorem IsLast.mem {refs : List ElementRef} {ref : ElementRef} (h : IsLast refs ref) :
    ref ∈ refs := by
  obtain ⟨before, behind, rfl, -⟩ := h
  exact List.mem_append_right _ List.mem_cons_self

theorem isLast_append_singleton {refs : List ElementRef} {added ref : ElementRef} :
    IsLast (refs ++ [added]) ref ↔ ref = added ∨ added.fqsen ≠ ref.fqsen ∧ IsLast refs ref := by
  constructor
  · rintro ⟨before, behind, heq, hlast⟩
    rcases List.eq_nil_or_concat behind with rfl | ⟨front, last, rfl⟩
    · obtain ⟨-, hadded⟩ := List.append_inj' heq rfl
      exact .inl (List.cons.inj hadded).1.symm
    · have hsplit : refs ++ [added] = (before ++ ref :: front) ++ [last] := by simpa using heq
      obtain ⟨rfl, hadded⟩ := List.append_inj' hsplit rfl
      obtain rfl := (List.cons.inj hadded).1
      exact .inr ⟨hlast _ (by simp), before, front, rfl, fun r hr => hlast r (by simp [hr])⟩
  · rintro (rfl | ⟨hne, before, behind, rfl, hlast⟩)
    · exact ⟨refs, [], rfl, by simp⟩
    · refine ⟨before, behind ++ [added], by simp, fun r hr => ?_⟩
      rcases List.mem_append.mp hr with hr | hr
      · exact hlast r hr
      · exact List.mem_singleton.mp hr ▸ hne

theorem exists_isLast {refs : List ElementRef} {ref : ElementRef} (h : ref ∈ refs) :
    ∃ last, IsLast refs last ∧ last.fqsen = ref.fqsen := by
  induction refs using List.reverseRecOn with
  | nil => simp at h
  | append_singleton refs added ih =>
    by_cases hname : added.fqsen = ref.fqsen
    · exact ⟨added, isLast_append_singleton.mpr (.inl rfl), hname⟩
    · have hbefore : ref ∈ refs := by
        rcases List.mem_append.mp h with h | h
        · exact h
        · exact absurd (List.mem_singleton.mp h ▸ rfl) hname
      obtain ⟨last, hlast, heq⟩ := ih hbefore
      exact ⟨last, isLast_append_singleton.mpr (.inr ⟨heq ▸ hname, hlast⟩), heq⟩

/-- The entries of the index of a list are the last elements of their names. -/
theorem get?_indexOf_iff {refs : List ElementRef} {key : String} {target : Target} :
    (indexOf refs).get? key = some target ↔
      ∃ ref, target = .element ref ∧ ref.fqsen.text = key ∧ IsLast refs ref := by
  induction refs using List.reverseRecOn with
  | nil =>
    refine ⟨fun h => by simp [indexOf] at h, ?_⟩
    rintro ⟨ref, -, -, hlast⟩
    exact absurd hlast.mem List.not_mem_nil
  | append_singleton refs added ih =>
    have hstep : indexOf (refs ++ [added]) =
        (indexOf refs).insert added.fqsen.text (.element added) := by
      simp [indexOf]
    rw [hstep, NameMap.get?_insert]
    split
    · next hkey =>
      constructor
      · rintro ⟨⟩
        exact ⟨added, rfl, hkey, isLast_append_singleton.mpr (.inl rfl)⟩
      · rintro ⟨ref, rfl, hname, hlast⟩
        rcases isLast_append_singleton.mp hlast with rfl | ⟨hne, -⟩
        · rfl
        · exact absurd (Fqsen.eq_of_text_eq (hkey.trans hname.symm)) hne
    · next hkey =>
      rw [ih]
      refine exists_congr fun ref => and_congr_right fun _ => and_congr_right fun hname => ?_
      have hne : added.fqsen ≠ ref.fqsen := fun h => hkey (h ▸ hname)
      refine ⟨fun h => isLast_append_singleton.mpr (.inr ⟨hne, h⟩), fun h => ?_⟩
      rcases isLast_append_singleton.mp h with rfl | ⟨-, h⟩
      · exact absurd rfl hne
      · exact h

theorem IsLast.unique {refs : List ElementRef} {a b : ElementRef} (ha : IsLast refs a)
    (hb : IsLast refs b) (h : a.fqsen = b.fqsen) : a = b := by
  have hgetA := get?_indexOf_iff.mpr ⟨a, rfl, rfl, ha⟩
  have hgetB := get?_indexOf_iff.mpr ⟨b, rfl, rfl, hb⟩
  rw [h, hgetB] at hgetA
  simpa using hgetA.symm

theorem mem_ofKind_iff {kind : ElementKind} {refs : List ElementRef} {ref : ElementRef} :
    ref ∈ ofKind kind refs ↔ ref ∈ refs ∧ ref.kind = kind ∧ ref.fqsen.isMember = false := by
  simp [ofKind]

theorem IsLast.ofKind {kind : ElementKind} {refs : List ElementRef} {ref : ElementRef}
    (h : IsLast refs ref) (hkind : ref.kind = kind) (hmember : ref.fqsen.isMember = false) :
    IsLast (ofKind kind refs) ref := by
  obtain ⟨before, behind, rfl, hlast⟩ := h
  refine ⟨Compile.ofKind kind before, Compile.ofKind kind behind, ?_, fun r hr => ?_⟩
  · simp [Compile.ofKind, hkind, hmember]
  · exact hlast r (mem_ofKind_iff.mp hr).1

/-- The part of the index of a list lies in the index of the part of the list. -/
theorem get?_indexOf_of_part {kind : ElementKind} {refs : List ElementRef} {key : String}
    {target : Target} (h : ((indexOf refs).part kind).get? key = some target) :
    (indexOf (ofKind kind refs)).get? key = some target := by
  obtain ⟨hget, found, rfl, hkind, hmember⟩ := Index.get?_part_iff.mp h
  obtain ⟨ref, heq, hname, hlast⟩ := get?_indexOf_iff.mp hget
  obtain rfl := Target.element.inj heq
  exact get?_indexOf_iff.mpr ⟨found, rfl, hname, hlast.ofKind hkind hmember⟩

theorem indexOf_ofKind_eq_part_iff (kind : ElementKind) (refs : List ElementRef) :
    indexOf (ofKind kind refs) = (indexOf refs).part kind ↔
      ∀ ref ∈ ofKind kind refs, ¬ Superseded refs ref := by
  constructor
  · rintro heq ref href ⟨last, hlast, hname, hkind⟩
    -- the entry of the name in the index of the kind is the last element of all of that name
    obtain ⟨found, hfound, hsame⟩ := exists_isLast href
    have hget := get?_indexOf_iff.mpr ⟨found, rfl, rfl, hfound⟩
    rw [heq] at hget
    obtain ⟨other, hother, -, hall⟩ := get?_indexOf_iff.mp (Index.get?_part_iff.mp hget).1
    obtain rfl := Target.element.inj hother
    obtain rfl := hall.unique hlast (hsame.trans hname.symm)
    exact hkind ((mem_ofKind_iff.mp hfound.mem).2.1.trans (mem_ofKind_iff.mp href).2.1.symm)
  · intro hfree
    refine NameMap.ext_get? fun key => Option.ext fun target => ⟨fun h => ?_, get?_indexOf_of_part⟩
    obtain ⟨ref, rfl, hname, hlast⟩ := get?_indexOf_iff.mp h
    obtain ⟨hmem, hkind, hmember⟩ := mem_ofKind_iff.mp hlast.mem
    obtain ⟨last, hall, hsame⟩ := exists_isLast hmem
    have hlastKind : last.kind = ref.kind :=
      Classical.byContradiction fun hne => hfree ref hlast.mem ⟨last, hall, hsame, hne⟩
    obtain rfl : last = ref :=
      (hall.ofKind (hlastKind.trans hkind) (hsame ▸ hmember)).unique hlast hsame
    exact Index.get?_part_iff.mpr
      ⟨get?_indexOf_iff.mpr ⟨last, rfl, hname, hall⟩, last, rfl, hkind, hmember⟩

/-- The index of a kind holds the part of the index of all elements that is of this kind, and is
that part exactly if no element of the kind is superseded. -/
theorem kind_index_eq_part_iff (s : ApiSet) {name : String} {kind : ElementKind}
    (hk : (name, kind) ∈ Index.byKind) :
    (∀ key target,
      (((buildIndexes false s).state.index Index.elements).part kind).get? key = some target →
        ((buildIndexes false s).state.index name).get? key = some target) ∧
    ((buildIndexes false s).state.index name =
        ((buildIndexes false s).state.index Index.elements).part kind ↔
      ∀ ref ∈ s.allElements, ref.kind = kind → ref.fqsen.isMember = false →
        ¬ Superseded s.allElements ref) := by
  have hall : (buildIndexes false s).state.index Index.elements = indexOf s.allElements :=
    index_withIndexes_elements s
  have hname : (buildIndexes false s).state.index name = indexOf (ofKind kind s.allElements) :=
    index_withIndexes hk s
  rw [hall, hname]
  refine ⟨fun key target h => get?_indexOf_of_part h, ?_⟩
  rw [indexOf_ofKind_eq_part_iff]
  refine forall_congr' fun ref => ?_
  rw [mem_ofKind_iff]
  exact ⟨fun h hmem hkind hmember => h ⟨hmem, hkind, hmember⟩,
    fun h hmem => h hmem.1 hmem.2.1 hmem.2.2⟩

/-- A constant in front of a class of its name. -/
def constantAndClass : ApiSet := .ofSources [⟨"a.php", "<?php const Foo = 1; class Foo {}"⟩]

/-- The constant is superseded, so that the index of constants is no part of that of all elements. -/
theorem constants_ne_part_constant_and_class :
    constantAndClass.Fresh ∧ ("constants", ElementKind.constant) ∈ Index.byKind ∧
      (buildIndexes false constantAndClass).state.index "constants" ≠
        ((buildIndexes false constantAndClass).state.index Index.elements).part .constant := by
  have hlisted : constantAndClass.allElements =
      [⟨0, .constant, ⟨"\\Foo"⟩⟩, ⟨0, .class, ⟨"\\Foo"⟩⟩] := by decide +kernel
  refine ⟨ApiSet.fresh_ofSources _, by decide, fun heq => ?_⟩
  have hfree := ((kind_index_eq_part_iff constantAndClass (by decide)).2.mp heq)
    ⟨0, .constant, ⟨"\\Foo"⟩⟩ (by simp [hlisted]) rfl (by decide)
  exact hfree ⟨⟨0, .class, ⟨"\\Foo"⟩⟩, ⟨[⟨0, .constant, ⟨"\\Foo"⟩⟩], [], hlisted, by simp⟩, rfl,
    by decide⟩

end Compile

end ApiDoc
