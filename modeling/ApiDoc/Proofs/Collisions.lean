import ApiDoc.Proofs.KindViews
import ApiDoc.Proofs.RenamedSteps

/-!
# Elements that share a name

The index of all elements holds one element for each name. Where several share one, the last of them
stays; if names are strict, the first element that repeats a name ends the step instead. Main
statement: what the index holds in the first case, and exactly which error there is in the second.
-/

namespace ApiDoc

namespace Compile

/-- Two elements of one name, the later of which is the first in the list to repeat a name. -/
def FirstRepeat (refs : List ElementRef) (earlier later : ElementRef) : Prop :=
  ∃ before behind, refs = before ++ later :: behind ∧ (before.map ElementRef.fqsen).Nodup ∧
    earlier ∈ before ∧ earlier.fqsen = later.fqsen

theorem fqsen_ne_of_nodup {front back : List ElementRef} {ref other : ElementRef}
    (h : ((front ++ ref :: back).map ElementRef.fqsen).Nodup) (hother : other ∈ front) :
    other.fqsen ≠ ref.fqsen := by
  rw [List.map_append, List.map_cons] at h
  exact (List.nodup_append.mp h).2.2 _ (List.mem_map_of_mem hother) _ List.mem_cons_self

/-- The map holds the elements of a list in which no name is repeated, under their names. -/
structure Holds (seen : NameMap ElementRef) (front : List ElementRef) : Prop where
  distinct : (front.map ElementRef.fqsen).Nodup
  get?_iff : ∀ fqsen ref, seen.get? fqsen.text = some ref ↔ ref ∈ front ∧ ref.fqsen = fqsen

theorem holds_empty : Holds .empty [] :=
  ⟨List.nodup_nil, fun fqsen ref => by simp [NameMap.get?_empty]⟩

theorem Holds.insert {seen : NameMap ElementRef} {front : List ElementRef} (h : Holds seen front)
    {ref : ElementRef} (hnew : seen.get? ref.fqsen.text = none) :
    Holds (seen.insert ref.fqsen.text ref) (front ++ [ref]) := by
  have hfresh (other : ElementRef) (hother : other ∈ front) : other.fqsen ≠ ref.fqsen := by
    intro heq
    rw [(h.get?_iff ref.fqsen other).mpr ⟨hother, heq⟩] at hnew
    simp at hnew
  constructor
  · rw [List.map_append, List.map_singleton]
    refine List.nodup_append.mpr
      ⟨h.distinct, List.nodup_singleton _, fun fqsen hfqsen other hother => ?_⟩
    obtain ⟨found, hfound, rfl⟩ := List.mem_map.mp hfqsen
    obtain rfl := List.mem_singleton.mp hother
    exact hfresh found hfound
  · intro fqsen other
    rw [NameMap.get?_insert, List.mem_append, List.mem_singleton]
    split
    · next htext =>
      obtain rfl := Fqsen.eq_of_text_eq htext
      constructor
      · rintro ⟨⟩
        exact ⟨.inr rfl, rfl⟩
      · rintro ⟨hother | rfl, heq⟩
        · exact absurd heq (hfresh other hother)
        · rfl
    · next htext =>
      rw [h.get?_iff]
      refine and_congr_left fun heq => ⟨.inl, ?_⟩
      rintro (hother | rfl)
      · exact hother
      · exact absurd (congrArg Fqsen.text heq) htext

/-- The first pair that is found behind some elements whose names all differ is the first repeat of
the whole list. -/
theorem head?_repeats_iff {seen : NameMap ElementRef} {front : List ElementRef}
    (h : Holds seen front) (refs : List ElementRef) (earlier later : ElementRef) :
    (repeats seen refs).head? = some (earlier, later) ↔
      FirstRepeat (front ++ refs) earlier later := by
  induction refs generalizing seen front with
  | nil =>
    simp only [repeats, List.head?_nil, List.append_nil, reduceCtorEq, false_iff]
    rintro ⟨before, behind, rfl, -, hmem, heq⟩
    exact fqsen_ne_of_nodup h.distinct hmem heq
  | cons ref rest ih =>
    cases hseen : seen.get? ref.fqsen.text with
    | none =>
      rw [repeats]
      simp only [hseen]
      rw [ih (h.insert hseen), List.append_assoc]
      rfl
    | some found =>
      obtain ⟨hfound, hname⟩ := (h.get?_iff ref.fqsen found).mp hseen
      have hunique {other : ElementRef} (hmem : other ∈ front) (heq : other.fqsen = ref.fqsen) :
          found = other := by
        have hget := (h.get?_iff ref.fqsen other).mpr ⟨hmem, heq⟩
        exact Option.some.inj (hseen.symm.trans hget)
      rw [repeats]
      simp only [hseen, List.head?_cons, Option.some_inj, Prod.mk.injEq]
      constructor
      · rintro ⟨rfl, rfl⟩
        exact ⟨front, rest, rfl, h.distinct, hfound, hname⟩
      · rintro ⟨before, behind, hsplit, hnodup, hmem, heq⟩
        -- the repeat cannot lie in front of `ref`, where no name is repeated, nor behind it
        rcases List.append_eq_append_iff.mp hsplit with ⟨more, rfl, hmore⟩ | ⟨more, rfl, hmore⟩
        · cases more with
          | nil =>
            obtain ⟨rfl, -⟩ := List.cons.inj hmore
            rw [List.append_nil] at hmem
            exact ⟨hunique hmem heq, rfl⟩
          | cons first more =>
            obtain ⟨rfl, -⟩ := List.cons.inj hmore
            exact absurd hname (fqsen_ne_of_nodup hnodup hfound)
        · cases more with
          | nil =>
            obtain ⟨rfl, -⟩ := List.cons.inj hmore
            exact ⟨hunique (List.mem_append_left _ hmem) heq, rfl⟩
          | cons first more =>
            obtain ⟨rfl, -⟩ := List.cons.inj hmore
            exact absurd heq (fqsen_ne_of_nodup h.distinct hmem)

/-- Names differ in a list unless two of its places have the same one. -/
theorem not_nodup_iff (refs : List ElementRef) : ¬ (refs.map ElementRef.fqsen).Nodup ↔
    ∃ i j : Fin refs.length, i < j ∧ refs[i].fqsen = refs[j].fqsen := by
  rw [List.Nodup, List.pairwise_map, List.pairwise_iff_getElem]
  simp only [not_forall, not_not]
  constructor
  · rintro ⟨i, j, hi, hj, hlt, heq⟩
    exact ⟨⟨i, hi⟩, ⟨j, hj⟩, hlt, heq⟩
  · rintro ⟨i, j, hlt, heq⟩
    exact ⟨i, j, i.isLt, j.isLt, hlt, heq⟩

theorem nodup_text_iff (refs : List ElementRef) :
    (refs.map fun ref => ref.fqsen.text).Nodup ↔ (refs.map ElementRef.fqsen).Nodup := by
  rw [← List.nodup_map_iff (l := refs.map ElementRef.fqsen) (f := Fqsen.text)
    fun _ _ h => Fqsen.eq_of_text_eq h, List.map_map]
  rfl

/-- An element of the listing of a set is in a file, by whose path it is called. -/
theorem exists_file {s : ApiSet} {ref : ElementRef} (h : ref ∈ s.allElements) :
    ∃ f, s.file? ref.file = some f ∧ s.fileLabel ref.file = f.path := by
  obtain ⟨f, hf, -⟩ := ApiSet.mem_allElements_iff.mp h
  exact ⟨f, hf, by rw [ApiSet.fileLabel, hf]⟩

theorem FirstRepeat.mem {refs : List ElementRef} {earlier later : ElementRef}
    (h : FirstRepeat refs earlier later) : earlier ∈ refs ∧ later ∈ refs := by
  obtain ⟨before, behind, rfl, -, hmem, -⟩ := h
  exact ⟨List.mem_append_left _ hmem, List.mem_append_right _ List.mem_cons_self⟩

/-- Building strictly fails with the first repeat and leaves the set as it is. -/
theorem buildIndexes_eq_fail_iff (s : ApiSet) (e : BuildError) :
    (buildIndexes true s).failure = some e ↔ buildIndexes true s = .fail s e ∧
      ∃ earlier later f g, FirstRepeat s.allElements earlier later ∧
        s.file? earlier.file = some f ∧ s.file? later.file = some g ∧
        e = .duplicateName later.fqsen.text f.path g.path := by
  have hfirst := head?_repeats_iff holds_empty s.allElements
  rw [List.nil_append] at hfirst
  unfold buildIndexes
  cases hpairs : repeats .empty s.allElements with
  | nil => simp [Attempt.fail]
  | cons pair pairs =>
    obtain ⟨earlier, later⟩ := pair
    have hrepeat := (hfirst earlier later).mp (by rw [hpairs]; rfl)
    obtain ⟨f, hf, hflabel⟩ := exists_file hrepeat.mem.1
    obtain ⟨g, hg, hglabel⟩ := exists_file hrepeat.mem.2
    simp only [Attempt.fail, hflabel, hglabel, Option.some_inj]
    constructor
    · rintro rfl
      exact ⟨rfl, earlier, later, f, g, hrepeat, hf, hg, rfl⟩
    · rintro ⟨heq, -⟩
      simpa using congrArg Attempt.failure heq

/-- Unless names are strict, building the indexes succeeds, and the index of elements has the names
of all elements as its keys, each with the last element of that name. If they are strict, it fails
exactly if two places of the listing have one name: with the first name that is repeated and the
paths of the two declarations, and the set keeps its indexes. -/
theorem outcome_buildIndexes (s : ApiSet) :
    (buildIndexes false s).failure = none ∧
    (∀ key, ((buildIndexes false s).state.index Index.elements).contains key = true ↔
      ∃ ref ∈ s.allElements, ref.fqsen.text = key) ∧
    (∀ key target, ((buildIndexes false s).state.index Index.elements).get? key = some target ↔
      ∃ ref, target = .element ref ∧ ref.fqsen.text = key ∧ IsLast s.allElements ref) ∧
    ((buildIndexes true s).failure.isSome ↔
      ∃ i j : Fin s.allElements.length, i < j ∧ s.allElements[i].fqsen = s.allElements[j].fqsen) ∧
    ∀ e, (buildIndexes true s).failure = some e ↔ buildIndexes true s = .fail s e ∧
      ∃ earlier later f g, FirstRepeat s.allElements earlier later ∧
        s.file? earlier.file = some f ∧ s.file? later.file = some g ∧
        e = .duplicateName later.fqsen.text f.path g.path := by
  have hindex : (buildIndexes false s).state.index Index.elements = indexOf s.allElements :=
    index_withIndexes_elements s
  have hget (key : String) (target : Target) : (indexOf s.allElements).get? key = some target ↔
      ∃ ref, target = .element ref ∧ ref.fqsen.text = key ∧ IsLast s.allElements ref :=
    get?_indexOf_iff
  rw [hindex]
  refine ⟨rfl, fun key => ?_, hget, ?_, buildIndexes_eq_fail_iff s⟩
  · rw [NameMap.contains, Option.isSome_iff_exists]
    constructor
    · rintro ⟨target, htarget⟩
      obtain ⟨ref, -, hname, hlast⟩ := (hget key target).mp htarget
      exact ⟨ref, hlast.mem, hname⟩
    · rintro ⟨ref, href, rfl⟩
      obtain ⟨last, hlast, hname⟩ := exists_isLast href
      exact ⟨.element last, (hget _ _).mpr ⟨last, rfl, congrArg Fqsen.text hname, hlast⟩⟩
  · rw [← not_nodup_iff, ← nodup_text_iff, ← failure_buildIndexes_iff, Option.isSome_iff_ne_none]

end Compile

end ApiDoc
