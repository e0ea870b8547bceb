import Mathlib.Data.Quot
import ApiDoc.Proofs.Agreement
import ApiDoc.Proofs.Linking

/-!
# Internal text does not show

Texts that differ only inside internal blocks are the same once internal text is dropped, and the
steps that edit texts before that leave the blocks alone, unless a block stands inside another inline
tag. So two projects that differ only inside such blocks are compiled to the same, apart from the
markers of their files: these are copied from the texts before internal text is dropped.
-/

namespace ApiDoc

namespace Compile

/-! ### Blocks -/

/-- What may stand in an internal block: something without braces. -/
structure IsBody (cs : List Char) : Prop where
  ne_nil : cs ≠ []
  not_opens : '{' ∉ cs
  not_closes : '}' ∉ cs

theorem internalStart_eq : internalStart = '{' :: internalStart.tail := by decide

theorem not_mem_tail_internalStart : '{' ∉ internalStart.tail := by decide

/-- Texts that are the same outside of some internal blocks. -/
inductive SameOutside : List Char → List Char → Prop
  | nil : SameOutside [] []
  | char (c : Char) {a b : List Char} (h : SameOutside a b) : SameOutside (c :: a) (c :: b)
  | block {gap : Char} {x y a b : List Char} (hgap : Text.isBlank gap = true) (hx : IsBody x)
      (hy : IsBody y) (h : SameOutside a b) :
      SameOutside (internalStart ++ gap :: (x ++ internalEnd ++ a))
        (internalStart ++ gap :: (y ++ internalEnd ++ b))

namespace SameOutside

variable {a b : List Char}

protected theorem refl (a : List Char) : SameOutside a a := by
  induction a with
  | nil => exact .nil
  | cons c rest ih => exact .char c ih

protected theorem symm (h : SameOutside a b) : SameOutside b a := by
  induction h with
  | nil => exact .nil
  | char c _ ih => exact .char c ih
  | block hgap hx hy _ ih => exact .block hgap hy hx ih

theorem append (front : List Char) (h : SameOutside a b) : SameOutside (front ++ a) (front ++ b) := by
  induction front with
  | nil => exact h
  | cons c rest ih => exact .char c ih

/-- A part without opening braces stands in both texts. -/
theorem exists_append {front : List Char} (hfront : '{' ∉ front) (h : SameOutside (front ++ a) b) :
    ∃ rest, b = front ++ rest ∧ SameOutside a rest := by
  induction front generalizing b with
  | nil => exact ⟨b, rfl, h⟩
  | cons c rest ih =>
    obtain ⟨hc, hrest⟩ : '{' ≠ c ∧ '{' ∉ rest := by simpa using hfront
    generalize hcs : c :: rest ++ a = cs at h
    cases h with
    | nil => simp at hcs
    | char d h =>
      obtain ⟨rfl, rfl⟩ := List.cons.inj hcs
      obtain ⟨tail, rfl, htail⟩ := ih hrest h
      exact ⟨tail, rfl, htail⟩
    | block =>
      rw [internalStart_eq, List.cons_append, List.cons_append] at hcs
      exact absurd (List.cons.inj hcs).1.symm hc

end SameOutside

theorem cut?_internalEnd {front : List Char} (h : '}' ∉ front) (rest : List Char) :
    Text.cut? internalEnd (front ++ internalEnd ++ rest) = some (front, rest) := by
  induction front with
  | nil => simp [Text.cut?, Text.after?, Text.startsWith, internalEnd]
  | cons c cs ih =>
    obtain ⟨hc, hcs⟩ : '}' ≠ c ∧ '}' ∉ cs := by simpa using h
    have hnone : Text.after? internalEnd (c :: (cs ++ internalEnd ++ rest)) = none := by
      have hne : ('}' == c) = false := by simpa using hc
      simp [Text.after?, Text.startsWith, internalEnd, List.isPrefixOf, hne]
    rw [List.cons_append, List.cons_append, Text.cut?, hnone, ih hcs]
    rfl

theorem not_mem_internalStart {gap : Char} (hgap : Text.isBlank gap = true) {x : List Char}
    (hx : IsBody x) : '}' ∉ internalStart ++ gap :: x := by
  have hblank : gap ≠ '}' := by
    rintro rfl
    exact absurd hgap (by decide)
  have hstart : '}' ∉ internalStart := by decide
  simpa [hx.not_closes, hblank, eq_comm] using hstart

theorem cut?_block {gap : Char} (hgap : Text.isBlank gap = true) {x : List Char} (hx : IsBody x)
    (rest : List Char) :
    Text.cut? internalEnd (internalStart ++ gap :: (x ++ internalEnd ++ rest)) =
        some (internalStart ++ gap :: x, rest) ∧
      Text.cut? internalEnd (internalStart.tail ++ gap :: (x ++ internalEnd ++ rest)) =
        some (internalStart.tail ++ gap :: x, rest) := by
  have hwhole := not_mem_internalStart hgap hx
  have htail : '}' ∉ internalStart.tail ++ gap :: x := by
    rw [internalStart_eq, List.cons_append] at hwhole
    exact fun h => hwhole (List.mem_cons_of_mem _ h)
  rw [← cut?_internalEnd hwhole rest, ← cut?_internalEnd htail rest]
  simp

/-- A piece without opening braces stands at the front of both texts or of none. -/
theorem SameOutside.exists_after? {piece a b rest : List Char} (hpiece : '{' ∉ piece)
    (h : SameOutside a b) (hafter : Text.after? piece a = some rest) :
    ∃ rest', Text.after? piece b = some rest' ∧ SameOutside rest rest' := by
  obtain rfl := Text.append_of_after? hafter
  obtain ⟨tail, rfl, hsame⟩ := h.exists_append hpiece
  exact ⟨tail, by simp [Text.after?, Text.startsWith_iff], hsame⟩

/-- The first end of internal text stands at the same place in both texts. -/
theorem SameOutside.exists_cut? {a b front rest : List Char} (h : SameOutside a b)
    (hcut : Text.cut? internalEnd a = some (front, rest)) :
    ∃ front' rest', Text.cut? internalEnd b = some (front', rest') ∧ SameOutside rest rest' := by
  have hend : '{' ∉ internalEnd := by decide
  induction h generalizing front with
  | nil => simp [Text.cut?, internalEnd] at hcut
  | @char c a b h ih =>
    rw [Text.cut?] at hcut
    rw [Text.cut?]
    cases hafter : Text.after? internalEnd (c :: a) with
    | some found =>
      obtain ⟨found', hfound', hsame⟩ := (SameOutside.char c h).exists_after? hend hafter
      rw [hafter] at hcut
      obtain ⟨-, rfl⟩ : [] = front ∧ found = rest := by simpa using hcut
      exact ⟨[], found', by rw [hfound'], hsame⟩
    | none =>
      have hnone : Text.after? internalEnd (c :: b) = none := by
        rw [Option.eq_none_iff_forall_ne_some]
        intro found' hfound'
        obtain ⟨found, hfound, -⟩ := (SameOutside.char c h).symm.exists_after? hend hfound'
        simp [hfound] at hafter
      rw [hafter] at hcut
      obtain ⟨⟨front₁, rest₁⟩, hrest, heq⟩ := Option.map_eq_some_iff.mp hcut
      obtain ⟨-, rfl⟩ : c :: front₁ = front ∧ rest₁ = rest := by simpa using heq
      obtain ⟨front', rest', hcut', hsame⟩ := ih hrest
      exact ⟨c :: front', rest', by rw [hnone, hcut']; rfl, hsame⟩
  | block hgap hx hy h ih =>
    rw [(cut?_block hgap hx _).1] at hcut
    obtain ⟨-, rfl⟩ := Prod.mk.inj (Option.some.inj hcut)
    exact ⟨_, _, (cut?_block hgap hy _).1, h⟩

/-- The first end of internal text behind the first character. -/
theorem SameOutside.exists_cut?_tail {c : Char} {cs b front rest : List Char}
    (h : SameOutside (c :: cs) b) (hcut : Text.cut? internalEnd cs = some (front, rest)) :
    ∃ ds front' rest', b = c :: ds ∧ Text.cut? internalEnd ds = some (front', rest') ∧
      SameOutside rest rest' := by
  generalize ha : c :: cs = a at h
  cases h with
  | nil => simp at ha
  | char d h =>
    obtain ⟨rfl, rfl⟩ := List.cons.inj ha
    obtain ⟨front', rest', hcut', hsame⟩ := h.exists_cut? hcut
    exact ⟨_, front', rest', rfl, hcut', hsame⟩
  | block hgap hx hy h =>
    rw [internalStart_eq, List.cons_append] at ha
    obtain ⟨rfl, rfl⟩ := List.cons.inj ha
    rw [(cut?_block hgap hx _).2] at hcut
    obtain ⟨-, rfl⟩ := Prod.mk.inj (Option.some.inj hcut)
    exact ⟨_, _, _, congrArg (· ++ _) internalStart_eq, (cut?_block hgap hy _).2, h⟩

theorem internalAt?_append {gap first : Char} (hgap : Text.isBlank gap = true)
    {more front rest : List Char} (hcut : Text.cut? internalEnd more = some (front, rest)) :
    internalAt? (internalStart ++ gap :: first :: more) = some (first :: front, rest) := by
  have hafter : Text.after? internalStart (internalStart ++ gap :: first :: more) =
      some (gap :: first :: more) := by
    simp [Text.after?, Text.startsWith_iff]
  rw [internalAt?, hafter]
  simp only [hgap, if_true, hcut, Option.map_some]

/-- Internal text at the front of a text is what a block holds. -/
theorem internalAt?_block {gap : Char} (hgap : Text.isBlank gap = true) {x : List Char}
    (hx : IsBody x) (rest : List Char) :
    internalAt? (internalStart ++ gap :: (x ++ internalEnd ++ rest)) = some (x, rest) := by
  cases x with
  | nil => exact absurd rfl hx.ne_nil
  | cons first more =>
    have hmore : '}' ∉ more := fun h => hx.not_closes (List.mem_cons_of_mem _ h)
    exact internalAt?_append hgap (cut?_internalEnd hmore rest)

/-- Internal text stands at the front of both texts or of none. -/
theorem SameOutside.exists_internalAt? {a b body rest : List Char} (h : SameOutside a b)
    (ha : internalAt? a = some (body, rest)) :
    ∃ body' rest', internalAt? b = some (body', rest') ∧ SameOutside rest rest' := by
  cases h with
  | nil => exact absurd (length_internalAt? ha) (Nat.not_lt_zero _)
  | block hgap hx hy h =>
    rw [internalAt?_block hgap hx] at ha
    obtain ⟨-, rfl⟩ := Prod.mk.inj (Option.some.inj ha)
    exact ⟨_, _, internalAt?_block hgap hy _, h⟩
  | @char c a b h =>
    rw [internalAt?] at ha
    split at ha
    · next gap first more hafter =>
      split at ha
      · next hgap =>
        obtain ⟨⟨front, rest₁⟩, hcut, heq⟩ := Option.map_eq_some_iff.mp ha
        obtain ⟨-, rfl⟩ : first :: front = body ∧ rest₁ = rest := by simpa using heq
        have hwhole : internalStart ++ gap :: first :: more = c :: a := Text.append_of_after? hafter
        rw [internalStart_eq, List.cons_append] at hwhole
        obtain ⟨rfl, rfl⟩ := List.cons.inj hwhole
        have hopen : gap ≠ '{' := by
          rintro rfl
          exact absurd hgap (by decide)
        have hfront : '{' ∉ internalStart.tail ++ [gap] := by
          simpa [hopen.symm] using not_mem_tail_internalStart
        obtain ⟨tail, rfl, htail⟩ := SameOutside.exists_append hfront
          (by rw [List.append_assoc]; exact h)
        obtain ⟨more', front', rest', rfl, hcut', hsame⟩ := htail.exists_cut?_tail hcut
        refine ⟨first :: front', rest', ?_, hsame⟩
        have hjoined : '{' :: (internalStart.tail ++ [gap] ++ first :: more') =
            internalStart ++ gap :: first :: more' := by
          rw [List.append_assoc]
          exact congrArg (· ++ _) internalStart_eq.symm
        rw [hjoined]
        exact internalAt?_append hgap hcut'
      · simp at ha
    · simp at ha

theorem settleInternal_of_internalAt? {cs body rest : List Char} (unwrap : Bool)
    (h : internalAt? cs = some (body, rest)) :
    settleInternal unwrap cs = (if unwrap then body else []) ++ settleInternal unwrap rest := by
  rw [settleInternal]
  split
  · next heq =>
    cases heq.symm.trans h
    rfl
  · next heq => simp [h] at heq

theorem settleInternal_nil (unwrap : Bool) : settleInternal unwrap [] = [] := by
  have hnone : internalAt? [] = none := by decide
  rw [settleInternal]
  split
  · next heq => simp [hnone] at heq
  · rfl

theorem settleInternal_cons {c : Char} {cs : List Char} (unwrap : Bool)
    (h : internalAt? (c :: cs) = none) :
    settleInternal unwrap (c :: cs) = c :: settleInternal unwrap cs := by
  rw [settleInternal]
  split
  · next heq => simp [h] at heq
  · rfl

/-- Texts that are the same outside of internal blocks are the same without internal text. -/
theorem SameOutside.settleInternal_eq {a b : List Char} (h : SameOutside a b) :
    settleInternal false a = settleInternal false b := by
  fun_induction settleInternal false a generalizing b with
  | case1 cs body rest hat ih =>
    obtain ⟨body', rest', hat', hsame⟩ := h.exists_internalAt? hat
    rw [settleInternal_of_internalAt? false hat', ih hsame]
    rfl
  | case2 hat =>
    generalize ha : [] = a at h
    cases h with
    | char => simp at ha
    | block =>
      rw [internalStart_eq, List.cons_append] at ha
      simp at ha
    | nil => rw [settleInternal_nil]
  | case3 c rest hat ih =>
    generalize ha : c :: rest = a at h
    cases h with
    | nil => simp at ha
    | block hgap hx hy h =>
      rw [ha, internalAt?_block hgap hx] at hat
      simp at hat
    | @char d _ others h =>
      obtain ⟨rfl, rfl⟩ := List.cons.inj ha
      have hnone : internalAt? (c :: others) = none := by
        rw [Option.eq_none_iff_forall_ne_some]
        rintro ⟨body, found⟩ hb
        obtain ⟨_, _, hfound, -⟩ := (SameOutside.char c h).symm.exists_internalAt? hb
        simp [hfound] at hat
      rw [settleInternal_cons false hnone, ih h]

/-! ### Edits of texts -/

/-- The tag of an internal block, up to the first of the two braces that end it. -/
structure Hides (t : InlineTag) (gap : Char) (body : List Char) : Prop where
  name_eq : t.name = internalTag
  raw_eq : t.raw = internalStart ++ gap :: (body ++ ['}'])
  blank : Text.isBlank gap = true
  isBody : IsBody body

/-- Pieces of texts that differ at most in what internal blocks hold. -/
inductive AlikePieces : List Segment → List Segment → Prop
  | nil : AlikePieces [] []
  | same (p : Segment) {a b : List Segment} (h : AlikePieces a b) : AlikePieces (p :: a) (p :: b)
  | block {t u : InlineTag} {gap : Char} {x y : List Char} {a b : List Segment}
      (ht : Hides t gap x) (hu : Hides u gap y) (h : AlikePieces a b) :
      AlikePieces (.tag t :: .char '}' :: a) (.tag u :: .char '}' :: b)

/-- Whether there is an inline example among pieces. -/
def HasExample (pieces : List Segment) : Prop := ∃ t, .tag t ∈ pieces ∧ t.name = "example"

/-- Texts that are the same or differ in what internal blocks hold; in the latter case no block
stands inside another inline tag and there is no inline example, whose text could be anything. -/
inductive Twins : String → String → Prop
  | same (text : String) : Twins text text
  | blocks {a b : String} (hnone : ¬HasExample (InlineTag.segments a))
      (h : AlikePieces (InlineTag.segments a) (InlineTag.segments b)) : Twins a b

protected theorem AlikePieces.refl (pieces : List Segment) : AlikePieces pieces pieces := by
  induction pieces with
  | nil => exact .nil
  | cons p rest ih => exact .same p ih

theorem AlikePieces.append (front : List Segment) {a b : List Segment} (h : AlikePieces a b) :
    AlikePieces (front ++ a) (front ++ b) := by
  induction front with
  | nil => exact h
  | cons p rest ih => exact .same p ih

/-- Where internal tags stay, pieces that are alike are replaced by texts that are the same outside
of internal blocks. -/
theorem AlikePieces.sameOutside {piece : Segment → List Char} (hchar : ∀ c, piece (.char c) = [c])
    (htag : ∀ t, t.name = internalTag → piece (.tag t) = t.raw) {a b : List Segment}
    (h : AlikePieces a b) : SameOutside (a.flatMap piece) (b.flatMap piece) := by
  induction h with
  | nil => exact .nil
  | same p h ih => exact ih.append (piece p)
  | @block t u gap x y a b ht hu h ih =>
    have hblock := SameOutside.block ht.blank ht.isBody hu.isBody ih
    simpa [List.flatMap_cons, htag t ht.name_eq, htag u hu.name_eq, hchar, ht.raw_eq, hu.raw_eq,
      internalEnd] using hblock

/-- No internal tag becomes a link. -/
theorem linkFor_internal (router : Router) (s : ApiSet) (scope : Scope) {t : InlineTag}
    (ht : t.name = internalTag) : linkFor router s scope t = none := by
  have hnot : inlineLinkTags.contains t.name = false := by
    rw [ht]
    decide
  simp only [linkFor, hnot, Bool.not_false, Bool.true_or, if_true]

theorem Twins.withLinks {a b : String} (h : Twins a b) (router : Router) (s : ApiSet)
    (scope : Scope) :
    SameOutside (withLinks router s scope a).toList (withLinks router s scope b).toList := by
  cases h with
  | same => exact .refl _
  | blocks _ h =>
    rw [Compile.withLinks, Compile.withLinks, InlineTag.substitute, InlineTag.substitute,
      String.toList_ofList, String.toList_ofList]
    refine h.sameOutside (fun _ => rfl) fun t ht => ?_
    simp only [linkFor_internal router s scope ht, Option.map_none, Option.getD_none]

theorem Twins.sameOutside {a b : String} (h : Twins a b) : SameOutside a.toList b.toList := by
  cases h with
  | same => exact .refl _
  | blocks _ h =>
    have hpieces : SameOutside ((InlineTag.segments a).flatMap Segment.raw)
        ((InlineTag.segments b).flatMap Segment.raw) :=
      h.sameOutside (fun _ => rfl) fun _ _ => rfl
    rwa [InlineTag.segments, InlineTag.segments, InlineTag.flatMap_raw_ofChars,
      InlineTag.flatMap_raw_ofChars] at hpieces

/-- A text without inline examples stays as it is. -/
theorem withExamples_of_not_hasExample (finder : ExampleFinder) (scope : Scope) {text : String}
    (h : ¬HasExample (InlineTag.segments text)) (done : List Lookup) :
    withExamples finder scope text done = (text, done) := by
  rw [withExamples_eq_substituteWith,
    substituteWith_exampleFor finder fun t ht hname => h ⟨t, ht, hname⟩,
    InlineTag.segments, InlineTag.flatMap_raw_ofChars, String.ofList_toList]

theorem AlikePieces.hasExample {a b : List Segment} (h : AlikePieces a b) (hb : HasExample b) :
    HasExample a := by
  induction h with
  | nil => exact hb
  | same p h ih =>
    obtain ⟨t, ht, hname⟩ := hb
    rcases List.mem_cons.mp ht with rfl | ht
    · exact ⟨t, List.mem_cons_self, hname⟩
    · obtain ⟨u, hu, huname⟩ := ih ⟨t, ht, hname⟩
      exact ⟨u, List.mem_cons_of_mem _ hu, huname⟩
  | block ht hu h ih =>
    obtain ⟨t, hmem, hname⟩ := hb
    rcases List.mem_cons.mp hmem with heq | hmem
    · cases heq
      exact absurd (hu.name_eq.symm.trans hname) (by decide)
    · obtain ⟨u, hu, huname⟩ := ih ⟨t, by simpa using hmem, hname⟩
      exact ⟨u, List.mem_cons_of_mem _ (List.mem_cons_of_mem _ hu), huname⟩

/-- Inline examples are put into twins alike. -/
theorem Twins.withExamples {a b : String} (h : Twins a b) (finder : ExampleFinder) (scope : Scope)
    (done : List Lookup) :
    Twins (withExamples finder scope a done).1 (withExamples finder scope b done).1 ∧
      (withExamples finder scope a done).2 = (withExamples finder scope b done).2 := by
  cases h with
  | same => exact ⟨.same _, rfl⟩
  | blocks hnone h =>
    rw [withExamples_of_not_hasExample finder scope hnone,
      withExamples_of_not_hasExample finder scope fun hb => hnone (h.hasExample hb)]
    exact ⟨.blocks hnone h, rfl⟩

/-! ### Texts with blocks -/

/-- Characters that open no tag are pieces of their own. -/
theorem ofChars_append {front : List Char} (h : '{' ∉ front) (rest : List Char) :
    Segment.ofChars (front ++ rest) = front.map .char ++ Segment.ofChars rest := by
  induction front with
  | nil => rfl
  | cons c cs ih =>
    obtain ⟨hc, hcs⟩ : '{' ≠ c ∧ '{' ∉ cs := by simpa using h
    have hnot : (c == '{') = false := beq_eq_false_iff_ne.mpr hc.symm
    rw [List.cons_append, Segment.ofChars, hnot]
    simp only [Bool.false_eq_true, if_false, ih hcs]
    rfl

theorem untilClose_append {x : List Char} (hopen : '{' ∉ x) (hclose : '}' ∉ x)
    (rest : List Char) : InlineTag.untilClose 0 (x ++ '}' :: rest) = some x := by
  induction x with
  | nil => simp [InlineTag.untilClose]
  | cons c cs ih =>
    obtain ⟨hc, hcs⟩ : '{' ≠ c ∧ '{' ∉ cs := by simpa using hopen
    obtain ⟨hd, hds⟩ : '}' ≠ c ∧ '}' ∉ cs := by simpa using hclose
    rw [List.cons_append, InlineTag.untilClose, ih hcs hds]
    · rfl
    · exact fun h => hc h.symm
    · exact fun h => hd h.symm

theorem internalStart_eq_word : internalStart = '{' :: '@' :: internalTag.toList := by decide

/-- A gap is blank and no part of a name. -/
theorem of_isGap {gap : Char} (h : InlineTag.isGap gap = true) :
    Text.isBlank gap = true ∧ InlineTag.isNameChar gap = false := by
  simp only [InlineTag.isGap, Bool.or_eq_true, beq_iff_eq] at h
  rcases h with ((rfl | rfl) | rfl) | rfl <;> decide

theorem bodyAt_block {gap : Char} (hgap : InlineTag.isGap gap = true) {x : List Char}
    (hx : IsBody x) (rest : List Char) :
    InlineTag.bodyAt (gap :: (x ++ '}' :: rest)) =
      some (gap :: x.takeWhile InlineTag.isGap, x.dropWhile InlineTag.isGap) := by
  have hbody : ∀ c ∈ x.dropWhile InlineTag.isGap, c ∈ x := fun c hc =>
    (List.dropWhile_sublist _).subset hc
  obtain ⟨htake, hdrop⟩ :=
    InlineTag.span_stop (show InlineTag.isGap '}' = false by decide) x rest
  rw [InlineTag.bodyAt, if_pos (by rw [hgap, Bool.or_true]), List.takeWhile_cons_of_pos hgap,
    List.dropWhile_cons_of_pos hgap, htake, hdrop,
    untilClose_append (fun h => hx.not_opens (hbody _ h)) (fun h => hx.not_closes (hbody _ h))]
  rfl

/-- The tag of a block behind its opening brace. -/
theorem exists_at?_block {gap : Char} (hgap : InlineTag.isGap gap = true) {x : List Char}
    (hx : IsBody x) (rest : List Char) :
    ∃ t, Hides t gap x ∧
      InlineTag.at? ('@' :: (internalTag.toList ++ gap :: (x ++ '}' :: rest))) =
        some (t, ('@' :: (internalTag.toList ++ gap :: (x ++ ['}']))).length) := by
  obtain ⟨hblank, hname⟩ := of_isGap hgap
  have hletters : ∀ c ∈ internalTag.toList, InlineTag.isNameChar c = true :=
    List.all_eq_true.mp (by decide)
  have hword : (internalTag.toList ++ gap :: (x ++ '}' :: rest)).takeWhile InlineTag.isNameChar =
      internalTag.toList := by
    rw [List.takeWhile_append_of_pos hletters, List.takeWhile_cons_of_neg (by simp [hname]),
      List.append_nil]
  have hbehind : (internalTag.toList ++ gap :: (x ++ '}' :: rest)).dropWhile InlineTag.isNameChar =
      gap :: (x ++ '}' :: rest) := by
    rw [List.dropWhile_append_of_pos hletters, List.dropWhile_cons_of_neg (by simp [hname])]
  have hlength : (x.takeWhile InlineTag.isGap).length + (x.dropWhile InlineTag.isGap).length =
      x.length := by
    rw [← List.length_append, List.takeWhile_append_dropWhile]
  have hwidth : internalTag.toList.length + (gap :: x.takeWhile InlineTag.isGap).length +
      (x.dropWhile InlineTag.isGap).length + 2 =
        ('@' :: (internalTag.toList ++ gap :: (x ++ ['}']))).length := by
    simp only [List.length_cons, List.length_append, List.length_nil]
    omega
  have hraw : ('@' :: (internalTag.toList ++ gap :: (x ++ '}' :: rest))).take
      ('@' :: (internalTag.toList ++ gap :: (x ++ ['}']))).length =
        '@' :: (internalTag.toList ++ gap :: (x ++ ['}'])) := by
    rw [show '@' :: (internalTag.toList ++ gap :: (x ++ '}' :: rest)) =
      '@' :: (internalTag.toList ++ gap :: (x ++ ['}'])) ++ rest by simp, List.take_left]
  refine ⟨⟨internalTag, String.ofList (Text.trim (x.dropWhile InlineTag.isGap)),
    '{' :: '@' :: (internalTag.toList ++ gap :: (x ++ ['}']))⟩, ⟨rfl, ?_, hblank, hx⟩, ?_⟩
  · rw [internalStart_eq_word]
    rfl
  · have hsome : internalTag.toList.isEmpty = false := by decide
    simp only [InlineTag.at?, hword, hbehind, hsome, bodyAt_block hgap hx, hwidth, hraw,
      Bool.false_eq_true, if_false, Option.map_some, String.ofList_toList]

/-- The pieces of a text that starts with a block. -/
theorem exists_ofChars_block {gap : Char} (hgap : InlineTag.isGap gap = true) {x : List Char}
    (hx : IsBody x) (rest : List Char) :
    ∃ t, Hides t gap x ∧
      Segment.ofChars (internalStart ++ gap :: (x ++ internalEnd ++ rest)) =
        .tag t :: .char '}' :: Segment.ofChars rest := by
  obtain ⟨t, ht, hat⟩ := exists_at?_block hgap hx ('}' :: rest)
  refine ⟨t, ht, ?_⟩
  have hsplit : internalStart ++ gap :: (x ++ internalEnd ++ rest) =
      '{' :: ('@' :: (internalTag.toList ++ gap :: (x ++ '}' :: '}' :: rest))) := by
    rw [internalStart_eq_word]
    simp [internalEnd]
  have hbehind : ('@' :: (internalTag.toList ++ gap :: (x ++ '}' :: '}' :: rest))).drop
      ('@' :: (internalTag.toList ++ gap :: (x ++ ['}']))).length = ['}'] ++ rest := by
    rw [show '@' :: (internalTag.toList ++ gap :: (x ++ '}' :: '}' :: rest)) =
      '@' :: (internalTag.toList ++ gap :: (x ++ ['}'])) ++ ('}' :: rest) by simp, List.drop_left]
    rfl
  rw [hsplit, Segment.ofChars]
  simp only [beq_self_eq_true, if_true, hat, hbehind,
    ofChars_append (show '{' ∉ ['}'] by decide) rest]
  rfl

/-- A text in which nothing opens a tag has no example, and only itself is alike. -/
theorem alike_of_not_opens {cs : List Char} (h : '{' ∉ cs) :
    ¬HasExample (Segment.ofChars cs) ∧ AlikePieces (Segment.ofChars cs) (Segment.ofChars cs) := by
  refine ⟨fun ⟨t, ht, _⟩ => ?_, .refl _⟩
  have hpieces := ofChars_append h []
  rw [List.append_nil] at hpieces
  simp [hpieces, Segment.ofChars] at ht

/-- Texts that are alike still are with a block before each of them. -/
theorem alike_block {gap : Char} (hgap : InlineTag.isGap gap = true) {front x y : List Char}
    (hfront : '{' ∉ front) (hx : IsBody x) (hy : IsBody y) {a b : List Char}
    (h : ¬HasExample (Segment.ofChars a) ∧
      AlikePieces (Segment.ofChars a) (Segment.ofChars b)) :
    ¬HasExample (Segment.ofChars (front ++ (internalStart ++ gap :: (x ++ internalEnd ++ a)))) ∧
      AlikePieces (Segment.ofChars (front ++ (internalStart ++ gap :: (x ++ internalEnd ++ a))))
        (Segment.ofChars (front ++ (internalStart ++ gap :: (y ++ internalEnd ++ b)))) := by
  obtain ⟨hnone, halike⟩ := h
  obtain ⟨t, ht, hat⟩ := exists_ofChars_block hgap hx a
  obtain ⟨u, hu, hbt⟩ := exists_ofChars_block hgap hy b
  rw [ofChars_append hfront, ofChars_append hfront, hat, hbt]
  constructor
  · rintro ⟨found, hfound, hname⟩
    simp only [List.mem_append, List.mem_map, List.mem_cons, reduceCtorEq, and_false, exists_false,
      false_or, Segment.tag.injEq] at hfound
    rcases hfound with rfl | hfound
    · exact absurd (ht.name_eq.symm.trans hname) (by decide)
    · exact hnone ⟨found, hfound, hname⟩
  · exact (AlikePieces.block ht hu halike).append _

/-! ### Three wordings -/

def withoutInternal (text : String) : String := String.ofList (settleInternal false text.toList)

theorem withoutInternal_congr {a b : String} (h : SameOutside a.toList b.toList) :
    withoutInternal a = withoutInternal b := by
  rw [withoutInternal, withoutInternal, h.settleInternal_eq]

/-- One text for all twins of a text. -/
noncomputable def classText (text : String) : String := (Quot.mk Twins text).out

theorem classText_congr {a b : String} (h : Twins a b) : classText a = classText b :=
  congrArg Quot.out (Quot.sound h)

/-- What is the same for twins is the same for texts of one class. -/
theorem eq_of_classText_eq {β : Type} (see : String → β) (hsee : ∀ a b, Twins a b → see a = see b)
    {a b : String} (h : classText a = classText b) : see a = see b := by
  have hclass := congrArg (Quot.mk Twins) h
  rw [classText, classText, Quot.out_eq, Quot.out_eq] at hclass
  exact congrArg (Quot.lift see hsee) hclass

end Compile

/-- Hashes are not seen, and markers in some way. -/
def Wording.unhashed (marks : List Marker → List Marker) : Wording where
  hash _ := ""
  markers := marks

/-- Nor are sources, and of texts only the class of their twins. -/
noncomputable def Wording.classes (marks : List Marker → List Marker) : Wording :=
  { Wording.unhashed marks with text := Compile.classText, source := fun _ => none }

/-- Nor are sources, and of texts only what is outside of internal text. -/
def Wording.outside (marks : List Marker → List Marker) : Wording :=
  { Wording.unhashed marks with text := Compile.withoutInternal, source := fun _ => none }

namespace Compile

variable {services : Services} {settings : Settings} {marks : List Marker → List Marker}

theorem transfers_examplesPass_classes :
    examplesPass.Transfers services settings (.classes marks) (.classes marks) := by
  refine transfers_examplesPass fun scope a b done hab => ?_
  refine Prod.mk.inj (eq_of_classText_eq (fun text =>
    (classText (withExamples services.finder scope text done).1,
      (withExamples services.finder scope text done).2)) (fun a b h => ?_) hab)
  obtain ⟨htexts, hdone⟩ := h.withExamples services.finder scope done
  rw [classText_congr htexts, hdone]

theorem showsLess_classes_outside : (Wording.classes marks).ShowsLess (.outside marks) where
  text _ _ hab := eq_of_classText_eq withoutInternal
    (fun _ _ h => withoutInternal_congr h.sameOutside) hab
  hash _ _ h := h
  markers _ _ h := h
  source _ _ h := h

theorem transfers_inlineLinksPass_classes :
    inlineLinksPass.Transfers services settings (.classes marks) (.outside marks) := by
  refine transfers_inlineLinksPass showsLess_classes_outside fun s scope a b hab => ?_
  exact eq_of_classText_eq (fun text => withoutInternal (withLinks services.router s scope text))
    (fun _ _ h => withoutInternal_congr (h.withLinks services.router s scope)) hab

end Compile

/-! ### Editing every text -/

namespace File

/-- Every element is found under its own address. -/
def Addressed (f : File) : Prop :=
  ∀ p item, f.at? p = some item → f.spotOf item.kind item.info.fqsen = some p

variable {f g : File}

theorem Addressed.keyed (hf : f.Addressed) : f.Keyed := by
  intro p item hitem
  have hspot := hf p item hitem
  cases hthrough : throughOwner item.kind item.info.fqsen with
  | false =>
    rw [spotOf_of_not_throughOwner f hthrough] at hspot
    cases hspot
    exact ⟨rfl, rfl⟩
  | true =>
    obtain ⟨owner, k, howner, -, rfl⟩ := spotOf_eq_member hthrough hspot
    exact ⟨rfl, hthrough, howner, rfl⟩

theorem addressed_reword (w : Wording) : (f.reword w).Addressed ↔ f.Addressed := by
  simp only [Addressed, at?_reword, spotOf_reword]
  constructor
  · intro h p item hitem
    exact h p (item.mapInfo w.info) (by rw [hitem]; rfl)
  · intro h p item hitem
    obtain ⟨old, hold, rfl⟩ := Option.map_eq_some_iff.mp hitem
    exact h p old hold

theorem Retouch.addressed {β : Type} {view : Item → β} (hg : f.Retouch view g)
    (hf : f.Addressed) : g.Addressed := by
  intro p item hitem
  obtain ⟨old, hold, houtline⟩ := hg.exists_at? hitem
  obtain ⟨hkind, hname, -⟩ : old.kind = item.kind ∧ old.info.fqsen = item.info.fqsen ∧
      old.visibility = item.visibility := by simpa [Item.outline] using houtline
  rw [hg.spotOf_eq, ← hkind, ← hname]
  exact hf p old hold

theorem Reduces.addressed (hg : f.Reduces g) (hf : f.Addressed) : g.Addressed := fun p item hitem =>
  hg.spotOf_eq (hf p item (hg p item hitem)) (by rw [hitem]; rfl)

end File

/-- A change of the documentation of an element leaves the texts of the file alone. -/
theorem File.texts_modifyInfo (f : File) (kind : ElementKind) (fqsen : Fqsen) (g : Info → Info) :
    (f.modifyInfo kind fqsen g).summary = f.summary ∧
      (f.modifyInfo kind fqsen g).description = f.description := by
  unfold modifyInfo
  split
  · cases fqsen.owner? with
    | none => exact ⟨rfl, rfl⟩
    | some owner =>
      dsimp only [modifyMembers]
      split
      · exact ⟨rfl, rfl⟩
      · split <;> exact ⟨rfl, rfl⟩
  · cases kind <;> exact ⟨rfl, rfl⟩

namespace Compile

section Every

variable {s : ApiSet} {g : String → String}

def newTexts (g : String → String) (item : Item) : NewTexts :=
  ⟨g item.info.summary, g item.info.description⟩

theorem editAllTexts_eq (edit : Scope → String → String) (s : ApiSet) :
    editAllTexts edit s =
      putTexts { s with files := s.files.map fun f =>
          { f with
            summary := edit (.ofFile f) f.summary
            description := edit (.ofFile f) f.description } }
        (s.present.map fun e => (e.1, newTexts (edit (s.scopeOf e.1)) e.2)) := by
  have hfiles (files : List File) :
      (editFiles (fun scope text (_ : Unit) => (edit scope text, ())) () files).1 =
        files.map fun f =>
          { f with
            summary := edit (.ofFile f) f.summary
            description := edit (.ofFile f) f.description } := by
    induction files with
    | nil => rfl
    | cons f rest ih => exact congrArg _ ih
  have helements (entries : List (ElementRef × Item)) :
      (editElements (fun scope text (_ : Unit) => (edit scope text, ())) s () entries).1 =
        entries.map fun e => (e.1, newTexts (edit (s.scopeOf e.1)) e.2) := by
    induction entries with
    | nil => rfl
    | cons e rest ih => exact congrArg _ ih
  unfold editAllTexts editAllTextsWith
  dsimp only
  rw [hfiles, helements]

/-- What stands at a spot when an address that leads there has got its new texts, if all those that
lead there get them alike. -/
theorem at?_putTexts {id : Nat} {p : Spot} {k : ElementRef → String → String}
    {entries : List (ElementRef × Item)} (hentries : ∀ e ∈ entries, s.item? e.1 = some e.2)
    (hk : ∀ e ∈ entries, e.1.file = id → s.spotOf e.1 = some p → k e.1 = g) {acc : ApiSet}
    (hspot : ∀ ref, acc.spotOf ref = s.spotOf ref)
    (hacc : acc.at? id p = s.at? id p ∨
      acc.at? id p = (s.at? id p).map (Item.mapInfo (Wording.info { text := g })))
    (hdone : acc.at? id p = (s.at? id p).map (Item.mapInfo (Wording.info { text := g })) ∨
      ∃ e ∈ entries, e.1.file = id ∧ s.spotOf e.1 = some p) :
    (putTexts acc (entries.map fun e => (e.1, newTexts (k e.1) e.2))).at? id p =
      (s.at? id p).map (Item.mapInfo (Wording.info { text := g })) := by
  induction entries generalizing acc with
  | nil =>
    rcases hdone with hdone | ⟨e, he, -⟩
    · exact hdone
    · exact absurd he List.not_mem_nil
  | cons e rest ih =>
    have hset : KeepsName fun i =>
        { i with
          summary := k e.1 e.2.info.summary
          description := k e.1 e.2.info.description } := fun _ => rfl
    have hspots := (ApiSet.Retouch.modifyInfo acc e.1 (unseen_unit hset)).spotOf_eq
    have hat := acc.at?_modifyFile e.1 (fun f q => f.at?_modifyInfo e.1.kind e.1.fqsen hset q) id p
    have hrest : ∀ x ∈ rest, s.item? x.1 = some x.2 := fun x hx =>
      hentries x (List.mem_cons_of_mem _ hx)
    have hkrest : ∀ x ∈ rest, x.1.file = id → s.spotOf x.1 = some p → k x.1 = g := fun x hx =>
      hk x (List.mem_cons_of_mem _ hx)
    rw [hspot] at hat
    by_cases hleads : e.1.file = id ∧ s.spotOf e.1 = some p
    · rw [if_pos hleads] at hat
      have hitem : s.at? id p = some e.2 := by
        have hfound := hentries e List.mem_cons_self
        rwa [ApiSet.item?_eq, hleads.2, Option.bind_some, hleads.1] at hfound
      have hnew : (acc.modifyInfo e.1 fun i =>
          { i with
            summary := k e.1 e.2.info.summary
            description := k e.1 e.2.info.description }).at? id p =
            (s.at? id p).map (Item.mapInfo (Wording.info { text := g })) := by
        rw [ApiSet.modifyInfo, hat, hk e List.mem_cons_self hleads.1 hleads.2]
        rcases hacc with hacc | hacc <;> rw [hacc, hitem] <;> rfl
      exact ih hrest hkrest (fun ref => (hspots ref).trans (hspot ref)) (.inr hnew) (.inl hnew)
    · rw [if_neg hleads] at hat
      refine ih hrest hkrest (fun ref => (hspots ref).trans (hspot ref)) (hat.symm ▸ hacc) ?_
      rcases hdone with hdone | ⟨x, hx, hxleads⟩
      · exact .inl (hat.trans hdone)
      · rcases List.mem_cons.mp hx with rfl | hx
        · exact absurd hxleads hleads
        · exact .inr ⟨x, hx, hxleads⟩

/-- Where all texts are edited, an element that an address leads to gets its texts edited as seen from
its place. -/
theorem at?_editAllTexts (edit : Scope → String → String) (hs : s.Keyed) {ref : ElementRef}
    {p : Spot} {item : Item} (hspot : s.spotOf ref = some p) (hitem : s.at? ref.file p = some item) :
    (editAllTexts edit s).at? ref.file p =
      some (item.mapInfo (Wording.info { text := edit (s.scopeOf ref) })) := by
  obtain ⟨f, hf, hfound⟩ := Option.bind_eq_some_iff.mp hitem
  have hkeyed := hs ref.file f hf
  have hreached (r : ElementRef) (hfile : r.file = ref.file) (hr : s.spotOf r = some p) :
      s.scopeOf r = .ofElement f item.kind item.info.fqsen := by
    have hrf : s.file? r.file = some f := by rw [hfile, hf]
    rw [ApiSet.spotOf, hrf] at hr
    rw [ApiSet.scopeOf_eq hrf, hkeyed.scope_eq hr hfound]
  have hleads : f.spotOf ref.kind ref.fqsen = some p := by
    rwa [ApiSet.spotOf, hf] at hspot
  have hstart : s.Retouch (fun item => item) { s with files := s.files.map fun f =>
      { f with
        summary := edit (.ofFile f) f.summary
        description := edit (.ofFile f) f.description } } :=
    .mapFiles s fun f => File.Retouch.of_declarations rfl rfl rfl rfl rfl
  have hsame := hstart.view_eq ref.file p
  rw [Option.map_id', Option.map_id'] at hsame
  have hself : s.spotOf ⟨ref.file, item.kind, item.info.fqsen⟩ = some p := by
    rw [ApiSet.spotOf, hf]
    exact hkeyed.spotOf_self hleads hfound
  have hput := at?_putTexts (g := edit (s.scopeOf ref)) (k := fun r => edit (s.scopeOf r))
    (fun e he => (ApiSet.mem_present_iff.mp he).2)
    (fun e _ hfile hr => by rw [hreached e.1 hfile hr, hreached ref rfl hspot])
    hstart.spotOf_eq (.inl hsame)
    (.inr ⟨_, mem_present_of_reached hf hkeyed hleads hfound, rfl, hself⟩)
  rw [editAllTexts_eq, hput, hitem, Option.map_some]

theorem texts_putTexts (texts : List (ElementRef × NewTexts)) (s : ApiSet) :
    (putTexts s texts).files.map (fun f => (f.summary, f.description)) =
      s.files.map fun f => (f.summary, f.description) := by
  unfold putTexts
  induction texts generalizing s with
  | nil => rfl
  | cons e rest ih =>
    refine (ih _).trans (List.ext_getElem? fun i => ?_)
    simp only [ApiSet.modifyInfo, ApiSet.modifyFile, List.getElem?_map, List.getElem?_modify]
    cases s.files[i]? with
    | none => rfl
    | some f =>
      obtain ⟨hsummary, hdescription⟩ := f.texts_modifyInfo e.1.kind e.1.fqsen fun i =>
        { i with summary := e.2.summary, description := e.2.description }
      simp only [Option.map_eq_map, Option.map_some, Option.some.injEq]
      split
      · rw [hsummary, hdescription]
      · rfl

/-- New texts do not show where no texts are seen. -/
theorem reword_putTexts {w : Wording} (hw : ∀ a b, w.text a = w.text b)
    (texts : List (ElementRef × NewTexts)) (s : ApiSet) :
    (putTexts s texts).reword w = s.reword w := by
  unfold putTexts
  induction texts generalizing s with
  | nil => rfl
  | cons e rest ih =>
    refine (ih _).trans (s.reword_modifyFile_same (fun f => ?_) e.1.file)
    refine f.reword_modifyInfo_same (fun i => ?_) e.1.kind e.1.fqsen
    simp only [Wording.info, hw e.2.summary i.summary, hw e.2.description i.description]

/-- An edit of all texts does not show where no texts are seen. -/
theorem reword_editAllTexts {w : Wording} (hw : ∀ a b, w.text a = w.text b)
    (edit : Scope → String → String) (s : ApiSet) :
    (editAllTexts edit s).reword w = s.reword w := by
  have hfile (f : File) : File.reword w
      { f with
        summary := edit (.ofFile f) f.summary
        description := edit (.ofFile f) f.description } = f.reword w := by
    simp only [File.reword, hw (edit (.ofFile f) f.summary) f.summary,
      hw (edit (.ofFile f) f.description) f.description]
  rw [editAllTexts_eq, reword_putTexts hw, ApiSet.reword, ApiSet.reword, List.map_map]
  exact congrArg (fun files => { s with files := files }) (List.map_congr_left fun f _ => hfile f)

/-- The texts of files are edited as seen from the files. -/
theorem texts_editAllTexts (edit : Scope → String → String) (s : ApiSet) :
    (editAllTexts edit s).files.map (fun f => (f.summary, f.description)) =
      s.files.map fun f => (edit (.ofFile f) f.summary, edit (.ofFile f) f.description) := by
  rw [editAllTexts_eq, texts_putTexts, List.map_map]
  rfl

/-- A set is determined by what it is without its texts, the texts of its files and what stands at its
spots. -/
theorem eq_of_texts_eq {t : ApiSet}
    (hbare : s.reword { text := fun _ => "" } = t.reword { text := fun _ => "" })
    (htexts : s.files.map (fun f => (f.summary, f.description)) =
      t.files.map fun f => (f.summary, f.description))
    (hat : ∀ id p, s.at? id p = t.at? id p) : s = t := by
  have hrest : { s with files := t.files } = t :=
    congrArg (fun u : ApiSet => { u with files := t.files }) hbare
  have hfiles : s.files = t.files := by
    refine List.ext_getElem? fun id => ?_
    have hbare := congrArg (fun u : ApiSet => u.files[id]?) hbare
    have htexts := congrArg (·[id]?) htexts
    simp only [ApiSet.files_reword, List.getElem?_map] at hbare htexts ⊢
    cases hf : s.files[id]? with
    | none => cases hg : t.files[id]? <;> simp [hf, hg] at hbare ⊢
    | some f =>
      cases hg : t.files[id]? with
      | none => simp [hf, hg] at hbare
      | some g =>
        simp only [hf, hg, Option.map_some, Option.some.injEq, Prod.mk.injEq] at hbare htexts ⊢
        have hhash := congrArg File.hash hbare
        have hmarkers := congrArg File.markers hbare
        have hsource := congrArg File.source hbare
        rw [← f.reword_default, ← g.reword_default]
        refine File.reword_congr hbare hhash htexts.1 htexts.2 hmarkers hsource
          fun p i j hi hj => ?_
        have hspot := hat id p
        rw [ApiSet.at?, ApiSet.at?, ApiSet.file?, ApiSet.file?, hf, hg, Option.bind_some,
          Option.bind_some, hi, hj] at hspot
        obtain rfl := Option.some.inj hspot
        exact ⟨rfl, rfl⟩
  rw [← hrest, ← hfiles]

/-- Where every element is found under its own address, editing all texts alike is rewording. -/
theorem editAllTexts_eq_reword (hs : ∀ f ∈ s.files, f.Addressed) (g : String → String) :
    editAllTexts (fun _ => g) s = s.reword { text := g } := by
  have hkeyed : s.Keyed := fun _ f hf => (hs f (List.mem_of_getElem? hf)).keyed
  have hbare : (editAllTexts (fun _ => g) s).reword { text := fun _ => "" } =
      (s.reword { text := g }).reword { text := fun _ => "" } := by
    rw [reword_editAllTexts fun _ _ => rfl, ApiSet.reword_reword]
    rfl
  have htexts : (editAllTexts (fun _ => g) s).files.map (fun f => (f.summary, f.description)) =
      (s.reword { text := g }).files.map fun f => (f.summary, f.description) := by
    rw [texts_editAllTexts, ApiSet.files_reword, List.map_map]
    rfl
  refine eq_of_texts_eq hbare htexts fun id p => ?_
  have hreword : (s.reword { text := g }).at? id p =
      (s.at? id p).map (Item.mapInfo (Wording.info { text := g })) := by
    rw [ApiSet.at?, ApiSet.file?_reword, ApiSet.at?]
    cases s.file? id with
    | none => rfl
    | some f => exact File.at?_reword _ f p
  rw [hreword]
  have hpresent := (retouch_editAllTexts (fun _ => g) s).1.isSome_at? id p
  cases hitem : s.at? id p with
  | none => simpa [hitem] using hpresent
  | some item =>
    obtain ⟨f, hf, hfound⟩ := Option.bind_eq_some_iff.mp hitem
    have hleads : s.spotOf ⟨id, item.kind, item.info.fqsen⟩ = some p := by
      rw [ApiSet.spotOf, hf]
      exact hs f (List.mem_of_getElem? hf) p item hfound
    exact at?_editAllTexts (fun _ => g) hkeyed hleads hitem

end Every

/-! ### The last step -/

theorem withoutSources_reword (marks : List Marker → List Marker) (s : ApiSet) :
    (withoutSources s).reword { Wording.outside marks with source := id } =
      withoutSources (s.reword (.outside marks)) := by
  rw [withoutSources, withoutSources, ApiSet.reword, ApiSet.reword, List.map_map]
  refine congrArg (fun files => { s with files := files }) ?_
  rw [List.map_map]
  rfl

theorem addressed_withoutSources {s : ApiSet} (hs : ∀ f ∈ s.files, f.Addressed) :
    ∀ f ∈ (withoutSources s).files, f.Addressed := by
  intro f hf
  obtain ⟨g, hg, rfl⟩ := List.mem_map.mp hf
  have hsame : g.Retouch (fun _ => ()) { g with source := none } :=
    .of_declarations rfl rfl rfl rfl rfl
  exact hsame.addressed (hs g hg)

theorem addressed_removeHidden (filter : VisibilityFilter) {s : ApiSet}
    (hs : ∀ f ∈ s.files, f.Addressed) : ∀ f ∈ (removeHidden filter s).1.files, f.Addressed := by
  intro f hf
  obtain ⟨id, hid⟩ := List.getElem?_of_mem hf
  obtain ⟨g, hg, hreduces⟩ :=
    (reduces_removeElements (doomed filter s.present) (s, 0)).exists_file? hid
  exact hreduces.addressed (hs g (List.mem_of_getElem? hg))

theorem addressed_congr {w : Wording} {s t : ApiSet} (hst : s.reword w = t.reword w)
    (hs : ∀ f ∈ s.files, f.Addressed) : ∀ f ∈ t.files, f.Addressed := by
  intro g hg
  have hmem : g.reword w ∈ (s.reword w).files := hst ▸ List.mem_map_of_mem hg
  obtain ⟨f, hf, heq⟩ := List.mem_map.mp hmem
  exact (File.addressed_reword w).mp (heq ▸ (File.addressed_reword w).mpr (hs f hf))

/-- What the last step does after internal text has been settled. -/
def finish (name : String) (removed : Nat) (settled : ApiSet) : Attempt ApiSet :=
  let done := unlinkRemoved (pruned settled)
  let stale := staleEntries settled + (staleAttached settled).length + done.2
  { state := done.1
    events :=
      if removed + stale = 0 then []
      else [.debug ("removed " ++ Text.ofNat removed ++ " elements and " ++ Text.ofNat stale ++
        " stale references from " ++ name)] }

theorem finish_reword (name : String) (removed : Nat) (w : Wording) (s : ApiSet) :
    finish name removed (s.reword w) = (finish name removed s).map (ApiSet.reword w) := by
  unfold finish
  rw [pruned_reword, unlinkRemoved_reword, staleEntries_reword, staleAttached_reword]
  rfl

theorem filterSet_eq_finish {settings : Settings}
    (hinternal : settings.visibility.allowsInternal = false)
    (hsource : settings.includeSource = false) (s : ApiSet) :
    filterSet settings s =
      let shown := removeHidden settings.visibility (withoutSources s)
      finish s.name shown.2 (editAllTexts (fun _ => withoutInternal) shown.1) := by
  unfold filterSet
  rw [hinternal, hsource]
  rfl

/-- What is shown of sets that are the same outside of internal text is the same. -/
theorem agree_filterSet {settings : Settings} (hinternal : settings.visibility.allowsInternal = false)
    (hsource : settings.includeSource = false) {marks : List Marker → List Marker} {s t : ApiSet}
    (hst : s.reword (.outside marks) = t.reword (.outside marks))
    (hs : ∀ f ∈ s.files, f.Addressed) :
    (filterSet settings s).Agree (ApiSet.reword (.unhashed marks)) (filterSet settings t) := by
  have hstart : (withoutSources s).reword { Wording.outside marks with source := id } =
      (withoutSources t).reword { Wording.outside marks with source := id } := by
    rw [withoutSources_reword, withoutSources_reword, hst]
  have hremoved := congrArg (removeHidden settings.visibility) hstart
  rw [removeHidden_reword, removeHidden_reword] at hremoved
  obtain ⟨hshown, hcount⟩ := Prod.mk.inj hremoved
  have haddressed := addressed_removeHidden settings.visibility (addressed_withoutSources hs)
  obtain ⟨hname, -⟩ := ApiSet.mk.inj hst
  have hcompose (u : ApiSet) : (u.reword { text := withoutInternal }).reword (.unhashed marks) =
      u.reword { Wording.outside marks with source := id } :=
    u.reword_reword { text := withoutInternal } (.unhashed marks)
  refine .of_map_eq ?_
  rw [filterSet_eq_finish hinternal hsource, filterSet_eq_finish hinternal hsource]
  dsimp only
  rw [editAllTexts_eq_reword haddressed, editAllTexts_eq_reword (addressed_congr hshown haddressed),
    ← finish_reword, ← finish_reword, hcompose, hcompose, hshown, hcount, hname]

end Compile

/-! ### Projects that differ in internal text -/

/-- Files that differ at most in hash, source and what internal blocks hold. -/
structure File.Twins (f g : File) : Prop where
  rest : f.reword ⟨fun _ => "", fun _ => "", id, fun _ => none⟩ =
    g.reword ⟨fun _ => "", fun _ => "", id, fun _ => none⟩
  summary : Compile.Twins f.summary g.summary
  description : Compile.Twins f.description g.description
  elements : ∀ p i j, f.at? p = some i → g.at? p = some j →
    Compile.Twins i.info.summary j.info.summary ∧
      Compile.Twins i.info.description j.info.description

/-- Documentation sets that are the same but for files that are twins. -/
inductive DocSet.Twins : DocSet → DocSet → Prop
  | api {s t : ApiSet} (rest : { s with files := [] } = { t with files := [] })
      (files : List.Forall₂ File.Twins s.files t.files) : Twins (.api s) (.api t)
  | guide (g : GuideSet) : Twins (.guide g) (.guide g)

structure Version.Twins (v u : Version) : Prop where
  number : v.number = u.number
  sets : List.Forall₂ DocSet.Twins v.sets u.sets

structure Project.Twins (p q : Project) : Prop where
  title : p.title = q.title
  settings : p.settings = q.settings
  versions : List.Forall₂ Version.Twins p.versions q.versions

section Twins

variable {marks : List Marker → List Marker}

theorem File.Twins.reword_eq {f g : File} (h : f.Twins g) :
    f.reword (.classes marks) = g.reword (.classes marks) := by
  have hmarkers := congrArg File.markers h.rest
  refine reword_congr h.rest rfl (Compile.classText_congr h.summary)
    (Compile.classText_congr h.description) (congrArg marks hmarkers) rfl fun p i j hi hj => ?_
  obtain ⟨hsummary, hdescription⟩ := h.elements p i j hi hj
  exact ⟨Compile.classText_congr hsummary, Compile.classText_congr hdescription⟩

theorem map_eq_of_forall₂ {α β : Type} {R : α → α → Prop} {see : α → β}
    (h : ∀ a b, R a b → see a = see b) {xs ys : List α} (hxy : List.Forall₂ R xs ys) :
    xs.map see = ys.map see := by
  induction hxy with
  | nil => rfl
  | cons hab _ ih => rw [List.map_cons, List.map_cons, h _ _ hab, ih]

theorem DocSet.Twins.reword_eq {d c : DocSet} (h : d.Twins c) :
    d.reword (.classes marks) = c.reword (.classes marks) := by
  cases h with
  | guide g => rfl
  | @api s t rest files =>
    have hfiles : s.files.map (File.reword (.classes marks)) = t.files.map (File.reword (.classes marks)) :=
      map_eq_of_forall₂ (fun _ _ hfg => hfg.reword_eq) files
    have hrest (files : List File) : { s with files := files } = { t with files := files } :=
      congrArg (fun u : ApiSet => { u with files := files }) rest
    exact congrArg DocSet.api
      ((hrest _).trans (congrArg (fun files => { t with files := files }) hfiles))

theorem Project.Twins.reword_eq {p q : Project} (h : p.Twins q) :
    p.reword (.classes marks) = q.reword (.classes marks) := by
  have hversion (v u : Version) (hvu : v.Twins u) :
      v.reword (.classes marks) = u.reword (.classes marks) := by
    rw [Version.reword, Version.reword, hvu.number,
      map_eq_of_forall₂ (fun _ _ hdc => DocSet.Twins.reword_eq hdc) hvu.sets]
  have hversions := map_eq_of_forall₂ hversion h.versions
  rw [reword, reword, h.title, h.settings, hversions]

end Twins

namespace Compiler

/-- Runs up to the last step on projects that differ in internal text. -/
theorem carried_preparing (services : Services) {marks : List Marker → List Marker} {p q : Project}
    (h : p.Twins q) (hmarks : p.settings.markers = [] ∨ ∀ m n, marks m = marks n) :
    Carried p.settings (.outside marks) ((Compiler.mk preparing).compile services p)
      ((Compiler.mk preparing).compile services q) := by
  have hstart : Carried p.settings (.classes marks) { state := p } { state := q } :=
    ⟨⟨rfl, rfl, fun _ => h.reword_eq⟩, fun _ => rfl⟩
  exact ((((((((hstart.step Compile.transfers_elementsPass).step Compile.transfers_linkPass).step
    Compile.transfers_spacesPass).step Compile.transfers_packagesPass).step
    (Compile.transfers_markersPass hmarks)).step Compile.transfers_examplesPass_classes).step
    Compile.transfers_inlineLinksPass_classes).step Compile.transfers_backLinksPass).step
    Compile.transfers_contentsPass

theorem compile_standard (services : Services) (p : Project) :
    standard.compile services p =
      ((Compiler.mk preparing).compile services p).andThen (runPass services Compile.filterPass) := by
  rw [compile, passes_standard]
  rfl

/-- Runs on projects that differ in internal text, which is not shown. -/
theorem agree_of_twins (services : Services) {marks : List Marker → List Marker} {p q : Project}
    (h : p.Twins q) (hmarks : p.settings.markers = [] ∨ ∀ m n, marks m = marks n)
    (hp : ∀ s ∈ p.apiSets, ∀ f ∈ s.files, f.Addressed)
    (hinternal : p.settings.visibility.allowsInternal = false)
    (hsource : p.settings.includeSource = false) :
    (standard.compile services p).Agree (Project.reword (.unhashed marks))
      (standard.compile services q) := by
  have hcarried := carried_preparing services h hmarks
  rw [compile_standard, compile_standard]
  refine hcarried.agree.runPass fun hnone => ?_
  have hsame := hcarried.agree.state hnone
  have hsettings := hcarried.settings_eq hnone
  have hsets := (Compile.exists_course_of_runs (runs_of_compile hnone)).2
  have hsettings' := (Project.settings_eq hsame).symm.trans hsettings
  simp only [Compile.filterPass, Pass.onApiSets, hsettings, hsettings']
  refine Project.agree_visitApis (fun v hv u hvu => ?_) hsame
  refine Compile.agree_filterSet hinternal hsource hvu fun g hg => ?_
  obtain ⟨s, hs, hcourse⟩ := hsets v hv
  obtain ⟨id, hid⟩ := List.getElem?_of_mem hg
  obtain ⟨f, hf, hretouch⟩ := hcourse.retouch.exists_file? hid
  exact hretouch.addressed (hp s hs f (List.mem_of_getElem? hf))

/-- Two projects that are the same outside of internal blocks in summaries and descriptions are
compiled to the same where internal text is not shown, hashes and markers of files aside; and if no
markers are asked for, hashes aside. -/
theorem same_outside_of_twins (services : Services) {p q : Project} (h : p.Twins q)
    (hp : ∀ s ∈ p.apiSets, ∀ f ∈ s.files, f.Addressed)
    (hinternal : p.settings.visibility.allowsInternal = false)
    (hsource : p.settings.includeSource = false) :
    (standard.compile services p).Agree (Project.reword (.unhashed fun _ => []))
      (standard.compile services q) ∧
    (p.settings.markers = [] → (standard.compile services p).Agree (Project.reword (.unhashed id))
      (standard.compile services q)) :=
  ⟨agree_of_twins services h (.inr fun _ _ => rfl) hp hinternal hsource,
    fun hmarkers => agree_of_twins services h (.inl hmarkers) hp hinternal hsource⟩

end Compiler

/-- A file with one function, whose summary has an internal note. -/
def File.noted (hash : String) (note : List Char) : File :=
  addFunction { path := "a.php", hash := hash }
    { info :=
        { fqsen := ⟨"\\f()"⟩, name := "f", line := 1
          summary := String.ofList ("Sum. ".toList ++
            (Compile.internalStart ++ ' ' :: (note ++ Compile.internalEnd ++ " Rest.".toList))) }
      body := {} }

/-- The only element of the file. -/
theorem File.eq_of_at?_noted {hash : String} {note : List Char} {p : Spot} {item : Item}
    (h : (noted hash note).at? p = some item) : p = .top .function "\\f()" := by
  cases p with
  | member owner ownerKey kind key => cases owner <;> simp [at?, membersIn?, noted, addFunction] at h
  | top kind key =>
    cases kind with
    | function =>
      by_cases hkey : "\\f()" = key
      · rw [hkey]
      · simp [at?, topItem?, noted, addFunction, NameMap.get?_insert_of_ne _ hkey] at h
    | «class» | interface | trait | constant | method | property =>
      simp [at?, topItem?, noted, addFunction] at h

theorem File.addressed_noted (hash : String) (note : List Char) : (noted hash note).Addressed := by
  intro p item hitem
  obtain rfl := eq_of_at?_noted hitem
  rw [at?, topItem?, noted, addFunction, NameMap.get?_insert_self] at hitem
  cases hitem
  rfl

theorem File.twins_noted (hash hash' : String) {x y : List Char} (hx : Compile.IsBody x)
    (hy : Compile.IsBody y) : (noted hash x).Twins (noted hash' y) where
  rest := rfl
  summary := .same ""
  description := .same ""
  elements p i j hi hj := by
    obtain rfl := eq_of_at?_noted hi
    rw [at?, topItem?, noted, addFunction, NameMap.get?_insert_self] at hi hj
    cases hi
    cases hj
    refine ⟨?_, .same ""⟩
    obtain ⟨hnone, halike⟩ := Compile.alike_block (show InlineTag.isGap ' ' = true by decide)
      (show '{' ∉ "Sum. ".toList by decide) hx hy
      (Compile.alike_of_not_opens (show '{' ∉ " Rest.".toList by decide))
    refine .blocks ?_ ?_
    · rw [InlineTag.segments, Element.functionItem, String.toList_ofList]
      exact hnone
    · simp only [InlineTag.segments, Element.functionItem, String.toList_ofList]
      exact halike

/-- A project with such a file alone, in which no markers are asked for. -/
def Project.noted (hash note : String) : Project where
  title := "Notes"
  settings := { markers := [] }
  versions := [{ number := "1.0", sets := [.api { name := "api", files := [.noted hash note.toList] }] }]

theorem Project.twins_noted (hash hash' : String) {x y : String} (hx : Compile.IsBody x.toList)
    (hy : Compile.IsBody y.toList) : (noted hash x).Twins (noted hash' y) where
  title := rfl
  settings := rfl
  versions := .cons ⟨rfl, .cons (.api rfl (.cons (File.twins_noted hash hash' hx hy) .nil)) .nil⟩ .nil

/-- What the note says does not show in what the project is compiled to. -/
theorem Compiler.same_outside_of_twins_noted :
    (standard.compile ⟨.standard, .none⟩ (.noted "1" "TODO rotate the key")).failure = none ∧
      (standard.compile ⟨.standard, .none⟩ (.noted "1" "TODO rotate the key")).state.reword
          (.unhashed id) =
        (standard.compile ⟨.standard, .none⟩ (.noted "2" "nothing to see")).state.reword
          (.unhashed id) := by
  have hdone : (standard.compile ⟨.standard, .none⟩
      (.noted "1" "TODO rotate the key")).failure = none :=
    failure_standard Router.exists_page_standard rfl rfl
  have htwins : (Project.noted "1" "TODO rotate the key").Twins (.noted "2" "nothing to see") :=
    Project.twins_noted _ _ ⟨by decide, by decide, by decide⟩ ⟨by decide, by decide, by decide⟩
  have hp : ∀ s ∈ (Project.noted "1" "TODO rotate the key").apiSets,
      ∀ f ∈ s.files, f.Addressed := by
    intro s hs f hf
    obtain rfl := List.mem_singleton.mp hs
    obtain rfl := List.mem_singleton.mp hf
    exact File.addressed_noted _ _
  exact ⟨hdone, ((same_outside_of_twins ⟨.standard, .none⟩ htwins hp rfl rfl).2 rfl).state hdone⟩

end ApiDoc
