import ApiDoc.Proofs.Words
import ApiDoc.Token.Lexer

/-!
# How code is cut into pieces

`Lexer.codeWidth` makes its tests in a fixed order. `Lexer.Cut` says the same without an order: one
case for each thing that a piece of code can start with, and one for each thing that can be without
an end. Main statement: `codeWidth` is what `Cut` says.
-/

namespace ApiDoc.Lexer

/-- The characters by which blanks, comments, attributes, strings, heredocs, variables and closing
tags are told. -/
def signs : List Char :=
  ['\n', ' ', '\t', '\r', '?', '#', '/', '\x27', '\x22', '\x60', '<', '$']

/-- Whether a comment, behind its slash, is one that documents what follows it. -/
def documents (cs : List Char) : Bool :=
  Text.startsWith ['*', '*'] cs && !Text.startsWith ['*', '*', '/'] cs

/-- The character starts punctuation in front of the text: it is no sign and starts no word and no
number, or what would make a sign of it is missing. -/
inductive Punctuates : Char → List Char → Prop
  | question {cs : List Char} : ¬ ['>'] <+: cs → Punctuates '?' cs
  | slash {cs : List Char} : ¬ ['/'] <+: cs → ¬ ['*'] <+: cs → Punctuates '/' cs
  | less {cs : List Char} : ¬ ['<', '<'] <+: cs → Punctuates '<' cs
  | dollar {cs : List Char} : cs.head?.any isNameStart = false → Punctuates '$' cs
  | other {c : Char} {cs : List Char} : c ∉ signs → (isNameStart c || c == '\\') = false →
    c.isDigit = false → Punctuates c cs

/-- What is cut from a text of code, by its first character: the kind of the piece and the number of
characters behind the first, or a fault and where it is. -/
inductive Cut : Char → List Char → Except (LexFault × Nat) (Option TokenKind × Nat) → Prop
  | blank {c : Char} {cs : List Char} : c ∈ ['\n', ' ', '\t', '\r'] → Cut c cs (.ok (none, 0))
  | closeTag {cs : List Char} : Cut '?' ('>' :: cs) (.ok (some .closeTag, 1))
  | attributes {cs : List Char} {n : Nat} : attributeWidth 1 2 cs = .ok n →
    Cut '#' ('[' :: cs) (.ok (none, n - 1))
  | openAttributes {cs : List Char} {e : LexFault × Nat} : attributeWidth 1 2 cs = .error e →
    Cut '#' ('[' :: cs) (.error e)
  | hashComment {cs : List Char} : ¬ ['['] <+: cs → Cut '#' cs (.ok (none, lineCommentWidth cs))
  | slashComment {cs : List Char} :
    Cut '/' ('/' :: cs) (.ok (none, lineCommentWidth ('/' :: cs)))
  | comment {cs : List Char} {n : Nat} : blockCommentWidth cs = some n →
    documents ('*' :: cs) = false → Cut '/' ('*' :: cs) (.ok (none, n + 1))
  | docComment {cs : List Char} {n : Nat} : blockCommentWidth cs = some n →
    documents ('*' :: cs) = true → Cut '/' ('*' :: cs) (.ok (some .docComment, n + 1))
  | openComment {cs : List Char} : blockCommentWidth cs = none →
    Cut '/' ('*' :: cs) (.error (.comment, 0))
  | string {c : Char} {cs : List Char} {n : Nat} : (isQuote c = true ∨ c = '\x60') →
    stringWidth c cs = some n → Cut c cs (.ok (some .literal, n))
  | openString {c : Char} {cs : List Char} : (isQuote c = true ∨ c = '\x60') →
    stringWidth c cs = none → Cut c cs (.error (.string, 0))
  | heredoc {cs : List Char} {n : Nat} : heredocWidth cs = .ok n →
    Cut '<' ('<' :: '<' :: cs) (.ok (some .literal, n + 2))
  | openHeredoc {cs : List Char} {fault : LexFault} : heredocWidth cs = .error fault →
    Cut '<' ('<' :: '<' :: cs) (.error (fault, 0))
  | variableName {cs : List Char} : cs.head?.any isNameStart = true →
    Cut '$' cs (.ok (some .variableName, (cs.takeWhile isNameChar).length))
  | name {c : Char} {cs : List Char} : (isNameStart c || c == '\\') = true →
    Cut c cs (.ok (some .name, (cs.takeWhile isQualifiedChar).length))
  | number {c : Char} {cs : List Char} : c.isDigit = true →
    Cut c cs (.ok (some .number, (cs.takeWhile isNumberChar).length))
  | punct {c : Char} {cs : List Char} : Punctuates c cs →
    Cut c cs (.ok (some .punct, punctWidth c cs))

/-! ### The tests behind each sign -/

section Signs

variable {c : Char} (cs : List Char)

theorem codeWidth_question : codeWidth '?' cs =
    if Text.startsWith ['>'] cs then .ok (some .closeTag, 1)
    else .ok (some .punct, punctWidth '?' cs) := rfl

theorem codeWidth_hash : codeWidth '#' cs =
    if Text.startsWith ['['] cs then (attributeWidth 1 2 (cs.drop 1)).map fun n => (none, n - 1)
    else .ok (none, lineCommentWidth cs) := rfl

theorem codeWidth_slash : codeWidth '/' cs =
    if Text.startsWith ['/'] cs then .ok (none, lineCommentWidth cs)
    else if Text.startsWith ['*'] cs then
      match blockCommentWidth (cs.drop 1) with
      | some n => .ok (if documents cs then some .docComment else none, n + 1)
      | none => .error (.comment, 0)
    else .ok (some .punct, punctWidth '/' cs) := rfl

theorem codeWidth_less : codeWidth '<' cs =
    if Text.startsWith ['<', '<'] cs then
      match heredocWidth (cs.drop 2) with
      | .ok n => .ok (some .literal, n + 2)
      | .error fault => .error (fault, 0)
    else .ok (some .punct, punctWidth '<' cs) := rfl

theorem codeWidth_dollar : codeWidth '$' cs =
    if cs.head?.any isNameStart then .ok (some .variableName, (cs.takeWhile isNameChar).length)
    else .ok (some .punct, punctWidth '$' cs) := rfl

theorem codeWidth_quote (h : isQuote c = true ∨ c = '\x60') : codeWidth c cs =
    match stringWidth c cs with
    | some n => .ok (some .literal, n)
    | none => .error (.string, 0) := by
  simp only [isQuote, Bool.or_eq_true, beq_iff_eq, or_assoc] at h
  rcases h with rfl | rfl | rfl <;> rfl

theorem codeWidth_of_not_mem_signs (h : c ∉ signs) : codeWidth c cs =
    if isNameStart c || c == '\\' then .ok (some .name, (cs.takeWhile isQualifiedChar).length)
    else if c.isDigit then .ok (some .number, (cs.takeWhile isNumberChar).length)
    else .ok (some .punct, punctWidth c cs) := by
  simp only [signs, List.mem_cons, List.not_mem_nil, or_false, not_or] at h
  simp [codeWidth, isQuote, h]

end Signs

/-! ### The cut -/

theorem eq_false_of_startsWith {piece cs : List Char} (h : ¬ piece <+: cs) :
    Text.startsWith piece cs = false :=
  Bool.eq_false_iff.mpr fun hstart => h (Text.startsWith_iff.mp hstart)

/-- A character that passes a test that every sign fails is no sign. -/
theorem not_mem_signs {p : Char → Bool} (hp : signs.any p = false) {c : Char} (h : p c = true) :
    c ∉ signs :=
  fun hc => List.any_eq_false.mp hp c hc h

theorem not_mem_signs_of_name {c : Char} (h : (isNameStart c || c == '\\') = true) : c ∉ signs :=
  not_mem_signs (p := fun c => isNameStart c || c == '\\') (by decide) h

theorem not_mem_signs_of_isDigit {c : Char} (h : c.isDigit = true) : c ∉ signs :=
  not_mem_signs (by decide) h

theorem isDigit_of_isNameStart {c : Char} (h : isNameStart c = true) : c.isDigit = false := by
  rw [Bool.eq_false_iff, ne_eq, Text.isDigit_iff, Text.le_iff_toNat, Text.le_iff_toNat]
  rintro ⟨hlow, hhigh⟩
  simp only [isNameStart, Bool.or_eq_true, Text.isAlpha_iff, Text.le_iff_toNat, beq_iff_eq,
    decide_eq_true_eq, Char.reduceToNat] at h hlow hhigh
  rcases h with (h | rfl) | h
  · omega
  · exact absurd hhigh (by decide)
  · omega

/-- A digit starts no name. -/
theorem name_of_isDigit {c : Char} (h : c.isDigit = true) :
    (isNameStart c || c == '\\') = false := by
  rw [Bool.eq_false_iff]
  intro hname
  rcases Bool.or_eq_true_iff.mp hname with hstart | hseparator
  · simp [isDigit_of_isNameStart hstart] at h
  · rw [beq_iff_eq.mp hseparator] at h
    exact absurd h (by decide)

section Signs

variable (cs : List Char)

theorem cut_question : Cut '?' cs (codeWidth '?' cs) := by
  rw [codeWidth_question]
  split
  · next h =>
    obtain ⟨rest, rfl⟩ := Text.startsWith_iff.mp h
    exact .closeTag
  · next h => exact .punct (.question fun hprefix => h (Text.startsWith_iff.mpr hprefix))

theorem cut_hash : Cut '#' cs (codeWidth '#' cs) := by
  rw [codeWidth_hash]
  split
  · next h =>
    obtain ⟨rest, rfl⟩ := Text.startsWith_iff.mp h
    cases hwidth : attributeWidth 1 2 rest with
    | ok n => simpa [hwidth, Except.map] using Cut.attributes hwidth
    | error e => simpa [hwidth, Except.map] using Cut.openAttributes hwidth
  · next h => exact .hashComment fun hprefix => h (Text.startsWith_iff.mpr hprefix)

theorem cut_slash : Cut '/' cs (codeWidth '/' cs) := by
  rw [codeWidth_slash]
  split
  · next h =>
    obtain ⟨rest, rfl⟩ := Text.startsWith_iff.mp h
    exact .slashComment
  · next hline =>
    split
    · next h =>
      obtain ⟨rest, rfl⟩ := Text.startsWith_iff.mp h
      cases hwidth : blockCommentWidth rest with
      | none => simpa [hwidth] using Cut.openComment hwidth
      | some n =>
        cases hdoc : documents ('*' :: rest) with
        | true => simpa [hwidth, hdoc] using Cut.docComment hwidth hdoc
        | false => simpa [hwidth, hdoc] using Cut.comment hwidth hdoc
    · next h =>
      exact .punct (.slash (fun hprefix => hline (Text.startsWith_iff.mpr hprefix))
        fun hprefix => h (Text.startsWith_iff.mpr hprefix))

theorem cut_less : Cut '<' cs (codeWidth '<' cs) := by
  rw [codeWidth_less]
  split
  · next h =>
    obtain ⟨rest, rfl⟩ := Text.startsWith_iff.mp h
    cases hwidth : heredocWidth rest with
    | ok n => simpa [hwidth] using Cut.heredoc hwidth
    | error fault => simpa [hwidth] using Cut.openHeredoc hwidth
  · next h => exact .punct (.less fun hprefix => h (Text.startsWith_iff.mpr hprefix))

theorem cut_dollar : Cut '$' cs (codeWidth '$' cs) := by
  rw [codeWidth_dollar]
  split
  · next h => exact .variableName h
  · next h => exact .punct (.dollar (Bool.eq_false_iff.mpr h))

theorem cut_quote {c : Char} (h : isQuote c = true ∨ c = '\x60') : Cut c cs (codeWidth c cs) := by
  rw [codeWidth_quote cs h]
  cases hwidth : stringWidth c cs with
  | some n => exact .string h hwidth
  | none => exact .openString h hwidth

theorem cut_of_not_mem_signs {c : Char} (h : c ∉ signs) : Cut c cs (codeWidth c cs) := by
  rw [codeWidth_of_not_mem_signs cs h]
  split
  · next hname => exact .name hname
  · next hname =>
    split
    · next hdigit => exact .number hdigit
    · next hdigit =>
      exact .punct (.other h (Bool.eq_false_iff.mpr hname) (Bool.eq_false_iff.mpr hdigit))

end Signs

/-- Every piece of code is cut in one of the ways. -/
theorem cut_codeWidth (c : Char) (cs : List Char) : Cut c cs (codeWidth c cs) := by
  by_cases hsign : c ∈ signs
  · simp only [signs, List.mem_cons, List.not_mem_nil, or_false] at hsign
    rcases hsign with rfl | rfl | rfl | rfl | rfl | rfl | rfl | rfl | rfl | rfl | rfl | rfl
    · exact .blank (by decide)
    · exact .blank (by decide)
    · exact .blank (by decide)
    · exact .blank (by decide)
    · exact cut_question cs
    · exact cut_hash cs
    · exact cut_slash cs
    · exact cut_quote cs (by decide)
    · exact cut_quote cs (by decide)
    · exact cut_quote cs (by decide)
    · exact cut_less cs
    · exact cut_dollar cs
  · exact cut_of_not_mem_signs cs hsign

/-- The piece that is cut from a text is the one that its first character and what follows it
call for. -/
theorem codeWidth_eq_iff {c : Char} {cs : List Char}
    {r : Except (LexFault × Nat) (Option TokenKind × Nat)} : codeWidth c cs = r ↔ Cut c cs r := by
  constructor
  · rintro rfl
    exact cut_codeWidth c cs
  · intro h
    cases h with
    | blank h =>
      simp only [List.mem_cons, List.not_mem_nil, or_false] at h
      rcases h with rfl | rfl | rfl | rfl <;> rfl
    | closeTag => rfl
    | attributes h => exact congrArg (Except.map fun n => (none, n - 1)) h
    | openAttributes h => exact congrArg (Except.map fun n => (none, n - 1)) h
    | hashComment h => rw [codeWidth_hash, if_neg (by simp [eq_false_of_startsWith h])]
    | slashComment => rfl
    | comment hwidth hdoc =>
      rw [codeWidth_slash]
      simp [Text.startsWith, hwidth, hdoc]
    | docComment hwidth hdoc =>
      rw [codeWidth_slash]
      simp [Text.startsWith, hwidth, hdoc]
    | openComment hwidth =>
      rw [codeWidth_slash]
      simp [Text.startsWith, hwidth]
    | string h hwidth => rw [codeWidth_quote cs h, hwidth]
    | openString h hwidth => rw [codeWidth_quote cs h, hwidth]
    | heredoc hwidth =>
      rw [codeWidth_less]
      simp [Text.startsWith, hwidth]
    | openHeredoc hwidth =>
      rw [codeWidth_less]
      simp [Text.startsWith, hwidth]
    | variableName h => rw [codeWidth_dollar, if_pos h]
    | name h => rw [codeWidth_of_not_mem_signs cs (not_mem_signs_of_name h), if_pos h]
    | number h =>
      rw [codeWidth_of_not_mem_signs cs (not_mem_signs_of_isDigit h),
        if_neg (by simp [name_of_isDigit h]), if_pos h]
    | punct h =>
      cases h with
      | question h => rw [codeWidth_question, if_neg (by simp [eq_false_of_startsWith h])]
      | slash hline h =>
        rw [codeWidth_slash, if_neg (by simp [eq_false_of_startsWith hline]),
          if_neg (by simp [eq_false_of_startsWith h])]
      | less h => rw [codeWidth_less, if_neg (by simp [eq_false_of_startsWith h])]
      | dollar h => rw [codeWidth_dollar, if_neg (by simp [h])]
      | other hsign hname hdigit =>
        rw [codeWidth_of_not_mem_signs cs hsign, if_neg (by simp [hname]), if_neg (by simp [hdigit])]

end ApiDoc.Lexer
