import ApiDoc.Proofs.InternalText
import ApiDoc.Proofs.Lookups

/-!
# Texts around a backtick

A backtick is no brace, no blank and no part of a name. So a text is read up to a backtick as if it
ended there, and behind it as if it started there, unless an inline tag or internal text was begun
before the backtick and is still to be closed. What follows says when that is not so, and that the
readers of inline tags and of internal text then work on both sides of the backtick on their own.
-/

namespace ApiDoc

namespace InlineTag

/-- The character around inline code. -/
def tick : Char := '\x60'

/-- Whether the body of a tag that starts in front is still to be closed. -/
def isBodyBegunAt (cs : List Char) : Bool :=
  cs.head?.any isGap && (untilClose 0 (cs.dropWhile isGap)).isNone

/-- Whether a tag that a brace before the text begins is still to be closed. -/
def isBegunAt : List Char → Bool
  | '@' :: rest =>
    !(rest.takeWhile isNameChar).isEmpty && isBodyBegunAt (rest.dropWhile isNameChar)
  | _ => false

theorem bodyAt_append_tick {cs : List Char} (h : bodyAt cs = none)
    (hbegun : isBodyBegunAt cs = false) (more : List Char) :
    bodyAt (cs ++ tick :: more) = none := by
  cases cs with
  | nil =>
    have htick : (tick == '}' || isGap tick) = false := by decide
    rw [List.nil_append, bodyAt, htick]
    rfl
  | cons c rest =>
    rw [bodyAt] at h
    rw [List.cons_append, bodyAt]
    by_cases hfirst : (c == '}' || isGap c) = true
    · -- such a text is closed at once or is still to be closed
      rw [if_pos hfirst, Option.map_eq_none_iff] at h
      cases hgap : isGap c with
      | true =>
        rw [isBodyBegunAt, h, List.head?_cons, Option.any_some, hgap] at hbegun
        exact absurd hbegun (by decide)
      | false =>
        have hclose : c = '}' := by simpa [hgap] using hfirst
        subst hclose
        simp [hgap, untilClose] at h
    · rw [if_neg hfirst]

/-- What is no tag, and does not begin one either, is none in front of a backtick. -/
theorem at?_append_tick {cs : List Char} (h : at? cs = none) (hbegun : isBegunAt cs = false)
    (more : List Char) : at? (cs ++ tick :: more) = none := by
  cases cs with
  | nil => rfl
  | cons c rest =>
    by_cases hc : c = '@'
    · subst hc
      obtain ⟨hname, hbehind⟩ := span_stop (show isNameChar tick = false by decide) rest more
      rw [at?] at h
      rw [isBegunAt] at hbegun
      rw [List.cons_append, at?, hname, hbehind]
      cases hempty : (rest.takeWhile isNameChar).isEmpty with
      | true => rfl
      | false =>
        simp only [hempty, Bool.false_eq_true, if_false, Option.map_eq_none_iff, Bool.not_false,
          Bool.true_and] at h hbegun ⊢
        exact bodyAt_append_tick h hbegun more
    · rw [List.cons_append, at?]
      intro cs heq
      exact hc (List.cons.inj heq).1

end InlineTag

namespace Segment

/-- Whether a brace among pieces begins a tag that is still to be closed. -/
def leavesBegun : List Segment → Bool
  | [] => false
  | .char c :: rest =>
    (c == '{' && InlineTag.isBegunAt (rest.flatMap Segment.raw)) || leavesBegun rest
  | .tag _ :: rest => leavesBegun rest

/-- The pieces of a text that goes on behind a backtick. -/
theorem ofChars_append_tick {cs : List Char} (h : leavesBegun (ofChars cs) = false)
    (more : List Char) : ofChars (cs ++ InlineTag.tick :: more) =
      ofChars cs ++ .char InlineTag.tick :: ofChars more := by
  fun_induction ofChars cs with
  | case1 =>
    have hnone : (InlineTag.tick == '{') = false := by decide
    rw [List.nil_append, ofChars, hnone]
    rfl
  | case2 c rest t width hat ih =>
    split at hat
    · next hc =>
      obtain ⟨hmore, hwidth⟩ := InlineTag.at?_append hat (InlineTag.tick :: more)
      rw [List.cons_append, ofChars]
      simp only [hc, if_true, hmore, List.drop_append_of_le_length hwidth]
      rw [ih h, List.cons_append]
    · simp at hat
  | case3 c rest hat ih =>
    rw [leavesBegun, InlineTag.flatMap_raw_ofChars, Bool.or_eq_false_iff] at h
    have hnone : (if c == '{' then InlineTag.at? (rest ++ InlineTag.tick :: more) else none) =
        none := by
      split
      · next hc =>
        have hrest : InlineTag.at? rest = none := by simpa [hc] using hat
        exact InlineTag.at?_append_tick hrest (by simpa [hc] using h.1) more
      · rfl
    rw [List.cons_append, ofChars, hnone]
    simp only [ih h.2, List.cons_append]

end Segment

namespace InlineTag

/-! ### Replacing tags -/

/-- The text of a piece where some tags are replaced. -/
def written (f : InlineTag → Option String) : Segment → List Char
  | .char c => [c]
  | .tag t => ((f t).map String.toList).getD t.raw

theorem toList_substitute (f : InlineTag → Option String) (text : String) :
    (substitute f text).toList = (segments text).flatMap (written f) := by
  rw [substitute, String.toList_ofList]
  refine congrArg (fun piece => (segments text).flatMap piece) (funext fun p => ?_)
  cases p <;> rfl

theorem substituteWith_unit (f : InlineTag → Option String) (pieces : List Segment) :
    (substituteWith (fun t (_ : Unit) => (f t, ())) pieces ()).1 = pieces.flatMap (written f) := by
  induction pieces with
  | nil => rfl
  | cons p rest ih =>
    rw [List.flatMap_cons, ← ih]
    cases p <;> rfl

/-- Putting examples into a text, each looked up anew, is replacing tags. -/
theorem withExampleTexts_eq (finder : ExampleFinder) :
    Compile.withExampleTexts finder = substitute (Compile.exampleText finder) := by
  funext text
  rw [← String.toList_inj, toList_substitute, Compile.withExampleTexts, String.toList_ofList,
    substituteWith_unit]

/-! ### Places of tags -/

theorem byteLength_append (a b : List Char) : byteLength (a ++ b) = byteLength a + byteLength b := by
  rw [byteLength, List.map_append, total_append]
  rfl

/-- A tag that is reported stands between the pieces before and behind it. -/
theorem exists_split_of_mem_foundFrom {pieces : List Segment} {offset : Nat} {found : Found}
    (h : found ∈ foundFrom offset pieces) :
    ∃ front back, pieces = front ++ .tag found.tag :: back ∧
      found.start = offset + byteLength (front.flatMap Segment.raw) := by
  induction pieces generalizing offset with
  | nil => simp [foundFrom] at h
  | cons p rest ih =>
    cases p with
    | char c =>
      obtain ⟨front, back, rfl, hstart⟩ := ih h
      refine ⟨.char c :: front, back, rfl, ?_⟩
      rw [hstart, List.flatMap_cons, byteLength_append]
      simp [Segment.raw, byteLength, total]
      omega
    | tag t =>
      rcases List.mem_cons.mp h with rfl | hrest
      · exact ⟨[], rest, rfl, rfl⟩
      · obtain ⟨front, back, rfl, hstart⟩ := ih hrest
        refine ⟨.tag t :: front, back, rfl, ?_⟩
        rw [hstart, List.flatMap_cons, byteLength_append, Segment.raw, Nat.add_assoc]

end InlineTag

namespace Text

/-! ### Finding pieces -/

variable {piece cs more : List Char} {c : Char}

/-- A piece in front of a text does not reach over a character that is not in it. -/
theorem after?_append_cons (hc : c ∉ piece) :
    after? piece (cs ++ c :: more) = (after? piece cs).map (· ++ c :: more) := by
  by_cases hstart : piece <+: cs
  · obtain ⟨rest, rfl⟩ := hstart
    simp [after?, startsWith_iff]
  · have hnot : ¬ piece <+: cs ++ c :: more := by
      rintro ⟨rest, hrest⟩
      rcases List.append_eq_append_iff.mp hrest with ⟨mid, hcs, -⟩ | ⟨mid, hpiece, hmid⟩
      · exact hstart ⟨mid, hcs.symm⟩
      · cases mid with
        | nil => exact hstart ⟨[], by simpa using hpiece⟩
        | cons d ds =>
          obtain ⟨rfl, -⟩ := List.cons.inj hmid
          exact hc (by simp [hpiece])
    simp [after?, startsWith_iff, hstart, hnot]

/-- Nor does its first place in a text depend on what follows. -/
theorem cut?_append_cons (hc : c ∉ piece) {front rest : List Char}
    (h : cut? piece cs = some (front, rest)) :
    cut? piece (cs ++ c :: more) = some (front, rest ++ c :: more) := by
  induction cs generalizing front with
  | nil =>
    rw [cut?] at h
    split at h
    · next hempty =>
      obtain ⟨rfl, rfl⟩ : [] = front ∧ [] = rest := by simpa using h
      simp [cut?, after?, startsWith, List.isEmpty_iff.mp hempty]
    · simp at h
  | cons d ds ih =>
    rw [cut?] at h
    rw [List.cons_append, cut?, ← List.cons_append, after?_append_cons hc]
    cases hafter : after? piece (d :: ds) with
    | some found =>
      rw [hafter] at h
      obtain ⟨rfl, rfl⟩ : [] = front ∧ found = rest := by simpa using h
      rfl
    | none =>
      rw [hafter] at h
      obtain ⟨⟨front', rest'⟩, hcut, heq⟩ := Option.map_eq_some_iff.mp h
      obtain ⟨rfl, rfl⟩ : d :: front' = front ∧ rest' = rest := by simpa using heq
      simp only [Option.map_none, ih hcut, Option.map_some]

end Text

namespace Compile

open InlineTag (tick)

/-! ### Internal text -/

/-- Whether internal text that starts in front is still to be closed. -/
def isInternalBegunAt (cs : List Char) : Bool :=
  match Text.after? internalStart cs with
  | some (gap :: more) => Text.isBlank gap && (Text.cut? internalEnd (more.drop 1)).isNone
  | _ => false

theorem internalAt?_append_tick {cs body rest : List Char} (h : internalAt? cs = some (body, rest))
    (more : List Char) :
    internalAt? (cs ++ tick :: more) = some (body, rest ++ tick :: more) := by
  rw [internalAt?] at h
  rw [internalAt?, Text.after?_append_cons (show tick ∉ internalStart by decide)]
  split at h
  · next gap first inner hafter =>
    split at h
    · next hgap =>
      obtain ⟨⟨front, rest'⟩, hcut, heq⟩ := Option.map_eq_some_iff.mp h
      obtain ⟨rfl, rfl⟩ : first :: front = body ∧ rest' = rest := by simpa using heq
      have hmore : Text.cut? internalEnd (inner ++ tick :: more) =
          some (front, rest' ++ tick :: more) := Text.cut?_append_cons (by decide) hcut
      simp only [hafter, Option.map_some, List.cons_append, hgap, if_true, hmore]
    · simp at h
  · simp at h

/-- What is no internal text, and does not begin it either, is none in front of a backtick. -/
theorem internalAt?_append_tick_eq_none {cs : List Char} (h : internalAt? cs = none)
    (hbegun : isInternalBegunAt cs = false) (more : List Char) :
    internalAt? (cs ++ tick :: more) = none := by
  rw [internalAt?] at h
  rw [isInternalBegunAt] at hbegun
  rw [internalAt?, Text.after?_append_cons (show tick ∉ internalStart by decide)]
  cases hafter : Text.after? internalStart cs with
  | none => rfl
  | some rest =>
    have hblank : Text.isBlank tick = false := by decide
    rw [hafter] at h hbegun
    cases rest with
    | nil => cases more <;> simp [hblank]
    | cons gap inner =>
      by_cases hgap : Text.isBlank gap = true
      · cases inner with
        | nil => simp [hgap, Text.cut?, internalEnd] at hbegun
        | cons first deeper =>
          simp only [hgap, if_true, Option.map_eq_none_iff] at h
          simp [hgap, h] at hbegun
      · cases inner <;> simp [hgap]

/-- Whether internal text is begun in a text and is still to be closed behind it. -/
def leavesInternal (cs : List Char) : Bool :=
  match _h : internalAt? cs with
  | some (_, rest) => leavesInternal rest
  | none =>
    match cs with
    | [] => false
    | c :: rest => isInternalBegunAt (c :: rest) || leavesInternal rest
termination_by cs.length
decreasing_by
  · exact length_internalAt? _h
  · simp

/-- Internal text is settled on both sides of a backtick on their own. -/
theorem settleInternal_append_tick {cs : List Char} (h : leavesInternal cs = false) (unwrap : Bool)
    (more : List Char) : settleInternal unwrap (cs ++ tick :: more) =
      settleInternal unwrap cs ++ tick :: settleInternal unwrap more := by
  fun_induction leavesInternal cs with
  | case1 cs body rest hat ih =>
    rw [settleInternal_of_internalAt? unwrap (internalAt?_append_tick hat more),
      settleInternal_of_internalAt? unwrap hat, ih h, List.append_assoc]
  | case2 hat =>
    have hnone := internalAt?_append_tick_eq_none hat (by decide) more
    rw [List.nil_append] at hnone
    rw [List.nil_append, settleInternal_cons unwrap hnone, settleInternal_nil,
      List.nil_append]
  | case3 c rest hat ih =>
    rw [Bool.or_eq_false_iff] at h
    have hnone := internalAt?_append_tick_eq_none hat h.1 more
    rw [List.cons_append] at hnone
    rw [List.cons_append, settleInternal_cons unwrap hnone, settleInternal_cons unwrap hat, ih h.2,
      List.cons_append]

/-! ### Texts in which nothing is begun -/

/-- Texts without a brace before an at sign. -/
def IsPlain (cs : List Char) : Prop := ¬ ['{', '@'] <:+: cs

instance (cs : List Char) : Decidable (IsPlain cs) := inferInstanceAs (Decidable (¬ _))

namespace IsPlain

variable {c : Char} {rest : List Char}

theorem tail (h : IsPlain (c :: rest)) : IsPlain rest := fun hrest => h (List.infix_cons hrest)

/-- What follows a brace begins nothing. -/
theorem of_brace (h : IsPlain ('{' :: rest)) :
    InlineTag.at? rest = none ∧ InlineTag.isBegunAt rest = false := by
  cases rest with
  | nil => exact ⟨rfl, rfl⟩
  | cons d ds =>
    have hd : d ≠ '@' := by
      rintro rfl
      exact h (List.IsPrefix.isInfix ⟨ds, rfl⟩)
    constructor
    · rw [InlineTag.at?]
      intro cs heq
      exact hd (List.cons.inj heq).1
    · rw [InlineTag.isBegunAt]
      intro cs heq
      exact hd (List.cons.inj heq).1

theorem after?_internalStart {cs : List Char} (h : IsPlain cs) :
    Text.after? internalStart cs = none := by
  rw [Option.eq_none_iff_forall_ne_some]
  intro rest hafter
  obtain rfl := Text.append_of_after? hafter
  have hstart : ['{', '@'] <+: internalStart := by decide
  exact h (hstart.trans (List.prefix_append _ _)).isInfix

end IsPlain

/-- A plain text has no tags and begins none. -/
theorem ofChars_of_isPlain {cs : List Char} (h : IsPlain cs) :
    Segment.ofChars cs = cs.map .char ∧ Segment.leavesBegun (Segment.ofChars cs) = false := by
  induction cs with
  | nil => exact ⟨by rw [Segment.ofChars, List.map_nil], by rw [Segment.ofChars]; rfl⟩
  | cons c rest ih =>
    obtain ⟨hpieces, hleaves⟩ := ih h.tail
    have hat : (if c == '{' then InlineTag.at? rest else none) = none ∧
        (c == '{' && InlineTag.isBegunAt rest) = false := by
      by_cases hc : c = '{'
      · subst hc
        obtain ⟨hat, hbegun⟩ := h.of_brace
        simp [hat, hbegun]
      · simp [hc]
    have hcons : Segment.ofChars (c :: rest) = .char c :: Segment.ofChars rest := by
      rw [Segment.ofChars, hat.1]
    rw [hcons]
    refine ⟨by rw [hpieces, List.map_cons], ?_⟩
    rw [Segment.leavesBegun, InlineTag.flatMap_raw_ofChars, hat.2, hleaves]
    rfl

/-- Nor does it have or begin internal text. -/
theorem settleInternal_of_isPlain {cs : List Char} (h : IsPlain cs) (unwrap : Bool) :
    settleInternal unwrap cs = cs ∧ leavesInternal cs = false := by
  induction cs with
  | nil => exact ⟨settleInternal_nil unwrap, by decide +kernel⟩
  | cons c rest ih =>
    obtain ⟨hsettled, hleaves⟩ := ih h.tail
    have hat : internalAt? (c :: rest) = none := by
      rw [internalAt?, h.after?_internalStart]
    have hbegun : isInternalBegunAt (c :: rest) = false := by
      rw [isInternalBegunAt, h.after?_internalStart]
    refine ⟨by rw [settleInternal_cons unwrap hat, hsettled], ?_⟩
    rw [leavesInternal]
    split
    · next heq => simp [hat] at heq
    · simp only [hbegun, hleaves, Bool.or_self]

end Compile

end ApiDoc
