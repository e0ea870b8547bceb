import ApiDoc.Proofs.Spans
import ApiDoc.Proofs.Reader
import ApiDoc.Proofs.Slices

/-!
# Included files

An include statement is recorded by its expression. `Due` says which text an expression calls for:
of a single literal in quotes what is between them, of anything else the source text, and one pair
of parentheses around the whole does not count. The reader looks at no tokens here, only at the
first and the last character of the text. `Apparent` is what has to hold for these to tell the whole
story, and `includes_of_ofSource` is the exact result: whatever the source is, the includes that are
recorded are those of the statements that the reader comes to, and one of them is the text that is
due if and only if its expression is apparent.

The text `'a' . 'b'` is not: it has a quote at both ends, which are not those of one literal.
-/

namespace ApiDoc

/-! ### Quoted texts -/

namespace Text

/-- The text with doubled backslashes undone, from left to right. -/
def undoubled : List Char → List Char
  | '\\' :: '\\' :: cs => '\\' :: undoubled cs
  | c :: cs => c :: undoubled cs
  | [] => []

theorem replaceAll_doubled (cs : List Char) :
    replaceAll ['\\', '\\'] ['\\'] cs = undoubled cs := by
  fun_induction undoubled cs with
  | case1 cs ih =>
    rw [replaceAll, dif_pos ⟨by decide, by simp [startsWith]⟩]
    exact congrArg ('\\' :: ·) ih
  | case2 c cs hsingle ih =>
    have hstart : ¬ startsWith ['\\', '\\'] (c :: cs) = true := by
      rw [startsWith_iff]
      rintro ⟨more, hmore⟩
      obtain ⟨rfl, rfl⟩ := List.cons.inj hmore
      exact hsingle more rfl rfl
    rw [replaceAll, dif_neg fun h => hstart h.2]
    exact congrArg (c :: ·) ih
  | case3 => rw [replaceAll, dif_neg (by simp [startsWith])]

theorem undoubled_sublist (cs : List Char) : (undoubled cs).Sublist cs := by
  fun_induction undoubled cs with
  | case1 cs ih => exact (ih.cons_cons '\\').cons '\\'
  | case2 c cs _ ih => exact ih.cons_cons c
  | case3 => exact .slnil

theorem count_undoubled {c : Char} (hc : c ≠ '\\') (cs : List Char) :
    (undoubled cs).count c = cs.count c := by
  fun_induction undoubled cs with
  | case1 cs ih => rw [List.count_cons_of_ne hc.symm, List.count_cons_of_ne hc.symm,
      List.count_cons_of_ne hc.symm, ih]
  | case2 d cs _ ih => rw [List.count_cons, List.count_cons, ih]
  | case3 => rfl

/-- Some content between two equal quotes. -/
def Quoted (cs content : List Char) : Prop :=
  ∃ q, Lexer.isQuote q = true ∧ cs = q :: (content ++ [q])

theorem isQuote_iff {q : Char} : Lexer.isQuote q = true ↔ q = '\x27' ∨ q = '\x22' := by
  rw [Lexer.isQuote, Bool.or_eq_true, beq_iff_eq, beq_iff_eq]

theorem Quoted.unique {cs content other : List Char} (h : Quoted cs content)
    (k : Quoted cs other) : content = other := by
  obtain ⟨q, -, rfl⟩ := h
  obtain ⟨p, -, heq⟩ := k
  exact (List.append_inj' (List.cons.inj heq).2 rfl).1

theorem Quoted.isTrimmed {cs content : List Char} (h : Quoted cs content) : IsTrimmed cs := by
  obtain ⟨q, hq, rfl⟩ := h
  have hblank : isBlank q = false := by
    rcases isQuote_iff.mp hq with rfl | rfl <;> decide
  exact isTrimmed_between hblank hblank content

end Text

namespace Reader

open Text

variable {cs content : List Char}

theorem unquote_of_quoted (h : Quoted cs content) :
    unquote (String.ofList cs) = String.ofList (undoubled content) := by
  obtain ⟨q, hq, rfl⟩ := h
  have hlast : (content ++ [q]).getLast? = some q := List.getLast?_concat
  have htest : ((q == '\x27' || q == '\x22') && (content ++ [q]).getLast? == some q) = true := by
    rw [hlast, Bool.and_eq_true]
    exact ⟨hq, beq_self_eq_true _⟩
  rw [unquote, String.toList_ofList]
  dsimp only
  rw [if_pos htest, List.dropLast_concat, replaceAll_doubled]

theorem unquote_of_not_quoted (h : ∀ content, ¬ Quoted cs content) :
    unquote (String.ofList cs) = String.ofList cs := by
  rw [unquote, String.toList_ofList]
  cases cs with
  | nil => rfl
  | cons q rest =>
    dsimp only
    apply if_neg
    intro htest
    rw [Bool.and_eq_true, beq_iff_eq] at htest
    apply h rest.dropLast
    exact ⟨q, htest.1, congrArg (q :: ·) (List.dropLast_append_getLast? q htest.2).symm⟩

/-- Taking off quotes makes a text shorter. -/
theorem length_unquote (cs : List Char) : (unquote (String.ofList cs)).toList.length ≤ cs.length ∧
    ((unquote (String.ofList cs)).toList.length = cs.length → ∀ content, ¬ Quoted cs content) := by
  by_cases hquoted : ∃ content, Quoted cs content
  · obtain ⟨content, h⟩ := hquoted
    have hlength := (undoubled_sublist content).length_le
    rw [unquote_of_quoted h, String.toList_ofList]
    obtain ⟨q, -, rfl⟩ := h
    simp only [List.length_cons, List.length_append, List.length_nil]
    omega
  · have hnone := not_exists.mp hquoted
    rw [unquote_of_not_quoted hnone, String.toList_ofList]
    exact ⟨Nat.le_refl _, fun _ => hnone⟩

theorem count_unquote {c : Char} (hquote : Lexer.isQuote c = false) (hc : c ≠ '\\')
    (cs : List Char) : (unquote (String.ofList cs)).toList.count c = cs.count c := by
  by_cases hquoted : ∃ content, Quoted cs content
  · obtain ⟨content, h⟩ := hquoted
    rw [unquote_of_quoted h, String.toList_ofList, count_undoubled hc]
    obtain ⟨q, hq, rfl⟩ := h
    have hne : q ≠ c := fun heq => absurd (heq ▸ hq) (Bool.eq_false_iff.mp hquote)
    rw [List.count_cons_of_ne hne, List.count_append, List.count_cons_of_ne hne, List.count_nil,
      Nat.add_zero]
  · rw [unquote_of_not_quoted (not_exists.mp hquoted), String.toList_ofList]

end Reader

/-! ### What lies between tokens -/

namespace Lexer

/-- The signs of which one stands in every comment, every attribute and all markup. -/
def marks : List Char := ['/', '#', '<']

/-- Text that is skipped between tokens: blanks, or something that has a mark. -/
def Skipped (cs : List Char) : Prop :=
  (∀ c ∈ cs, Text.isBlank c = true) ∨ ∃ c ∈ cs, c ∈ marks

theorem skipped_nil : Skipped [] := .inl (by simp)

theorem not_isBlank_of_mark {c : Char} (h : c ∈ marks) : Text.isBlank c = false := by
  simp only [marks, List.mem_cons, List.not_mem_nil, or_false] at h
  rcases h with rfl | rfl | rfl <;> decide

/-- Skipped text around another one is trimmed with it, or leaves a mark. -/
theorem trim_or_marked {front back : List Char} (cs : List Char) (hfront : Skipped front)
    (hback : Skipped back) :
    Text.trim (front ++ cs ++ back) = Text.trim cs ∨
      ∃ c ∈ marks, cs.count c < (Text.trim (front ++ cs ++ back)).count c := by
  have hmarked {c : Char} (hc : c ∈ front ∨ c ∈ back) (hmark : c ∈ marks) :
      cs.count c < (Text.trim (front ++ cs ++ back)).count c := by
    rw [Text.count_trim (not_isBlank_of_mark hmark), List.count_append, List.count_append]
    rcases hc with hc | hc
    · have := List.count_pos_iff.mpr hc
      omega
    · have := List.count_pos_iff.mpr hc
      omega
  rcases hfront with hfront | ⟨c, hc, hmark⟩
  · rcases hback with hback | ⟨c, hc, hmark⟩
    · left
      rw [Text.trim_append hback, Text.trim, Text.trimStart_append hfront, ← Text.trim]
    · exact .inr ⟨c, hmark, hmarked (.inr hc) hmark⟩
  · exact .inr ⟨c, hmark, hmarked (.inl hc) hmark⟩

theorem Skipped.append {cs ds : List Char} (h : Skipped cs) (k : Skipped ds) :
    Skipped (cs ++ ds) := by
  rcases h with h | ⟨c, hc, hmark⟩
  · rcases k with k | ⟨c, hc, hmark⟩
    · exact .inl fun c hc => (List.mem_append.mp hc).elim (h c) (k c)
    · exact .inr ⟨c, List.mem_append_right cs hc, hmark⟩
  · exact .inr ⟨c, List.mem_append_left ds hc, hmark⟩

/-- Code that is no token is a single blank or starts with a mark. -/
theorem skipped_of_codeWidth {c : Char} {cs : List Char} {n : Nat}
    (h : codeWidth c cs = .ok (none, n)) : Skipped (c :: cs.take n) := by
  have hmark (hc : c ∈ marks) : Skipped (c :: cs.take n) :=
    .inr ⟨c, List.mem_cons_self, hc⟩
  cases codeWidth_eq_iff.mp h with
  | blank hblank =>
    left
    intro d hd
    obtain rfl : d = c := by simpa using hd
    simp only [List.mem_cons, List.not_mem_nil, or_false] at hblank
    rcases hblank with rfl | rfl | rfl | rfl <;> decide
  | attributes _ => exact hmark (by decide)
  | hashComment _ => exact hmark (by decide)
  | slashComment => exact hmark (by decide)
  | comment _ _ => exact hmark (by decide)

/-- Markup has an opening tag in it, unless nothing follows. -/
theorem skipped_markup (c : Char) (cs : List Char) :
    Skipped (c :: cs.take (markupWidth (c :: cs) - 1)) ∨ markupWidth (c :: cs) - 1 = cs.length := by
  rw [markupWidth]
  cases hcut : Text.cut? ['<', '?'] (c :: cs) with
  | none => exact .inr rfl
  | some found =>
    obtain ⟨front, rest⟩ := found
    have hopen : front ++ ['<', '?'] <+: c :: cs := ⟨rest, Text.append_of_cut? hcut⟩
    dsimp only
    generalize (if Text.startsWith ['p', 'h', 'p'] rest = true then 3
      else if Text.startsWith ['='] rest = true then 1 else 0) = tag
    have hwidth : (front ++ ['<', '?']).length ≤ front.length + 2 + tag := by
      rw [List.length_append]
      exact Nat.le_add_right _ tag
    have htaken : front ++ ['<', '?'] <+: c :: cs.take (front.length + 2 + tag - 1) := by
      have htake := List.prefix_take_iff.mpr ⟨hopen, hwidth⟩
      rwa [show front.length + 2 + tag = (front.length + 2 + tag - 1) + 1 by omega,
        List.take_succ_cons] at htake
    left
    right
    exact ⟨'<', htaken.subset (by simp), by decide⟩

theorem skipped_place_divide {mode : Mode} {cs lead : List Char} (h : Skipped lead)
    (offset line : Nat) :
    ∀ t ∈ place lead offset line (divide mode cs).pieces, Skipped t.lead.toList := by
  induction mode, cs using divide.induct generalizing lead offset line with
  | case1 => simp [divide, place]
  | case2 mode c cs fault seen hwidth => simp [divide, hwidth, place]
  | case3 mode c cs kind n hwidth ih =>
    rw [divide, hwidth]
    cases kind with
    | some kind =>
      intro t ht
      rcases List.mem_cons.mp ht with rfl | ht
      · simpa using h
      · exact ih skipped_nil _ _ t ht
    | none =>
      dsimp only
      rw [place]
      cases mode with
      | code => exact ih (h.append (skipped_of_codeWidth hwidth)) _ _
      | markup =>
        simp only [width, Except.ok.injEq, Prod.mk.injEq, true_and] at hwidth
        rcases skipped_markup c cs with hskipped | hall
        · exact ih (h.append (hwidth ▸ hskipped)) _ _
        · have hnone : (divide (modeAfter none) (cs.drop n)).pieces = [] := by
            rw [← hwidth, hall, List.drop_length, divide]
          simp [hnone, place]

end Lexer

/-- A token has a text, and what lies in front of it was skipped. -/
structure Token.Divided (t : Token) : Prop where
  text : t.text.toList ≠ []
  lead : Lexer.Skipped t.lead.toList

theorem Token.divided_ofSource {source : String} {tokens : List Token}
    (h : Token.ofSource source = .ok tokens) : ∀ t ∈ tokens, t.Divided := by
  intro t ht
  constructor
  · exact Lexer.of_mem_ofSource (P := fun _ text => text ≠ [])
      (fun _ _ _ _ _ => List.cons_ne_nil _ _) h t ht
  · simp only [Token.ofSource] at h
    split at h
    · cases h
      exact Lexer.skipped_place_divide Lexer.skipped_nil 0 1 t ht
    · cases h

/-! ### Expressions -/

/-- A literal in single or double quotes, and what is between them. -/
def Token.Quotes (t : Token) (content : List Char) : Prop :=
  t.kind = .literal ∧ Text.Quoted t.text.toList content

/-- One pair of parentheses stands around all of the tokens. -/
def IsWrapped (e : List Token) : Prop :=
  ∃ o c inner, o.is "(" = true ∧ c.is ")" = true ∧ Nested inner ∧ e = o :: (inner ++ [c])

/-- An expression without one pair of parentheses around the whole: the tokens that are left, and
the text they stand in. -/
inductive Unwraps : List Token → List Token → List Char → Prop
  | wrapped {o c : Token} {inner : List Token} : o.is "(" = true → c.is ")" = true →
    Nested inner → Unwraps (o :: (inner ++ [c])) inner (Token.gapped inner ++ c.lead.toList)
  | bare {e : List Token} : ¬ IsWrapped e → Unwraps e e (Token.sourceText e)

/-- The text that an expression calls for: of a literal in quotes its content, of anything else the
source text. -/
inductive Due : List Token → List Char → Prop
  | literal {t : Token} {content : List Char} : t.Quotes content → Due [t] (Text.undoubled content)
  | source {inner : List Token} : inner ≠ [] →
    (∀ t content, inner = [t] → ¬ t.Quotes content) → Due inner (Token.sourceText inner)

/-- The first and the last character of the text show what the expression is: parentheses there are
those of one pair, the expression fills the text up to blanks and has none at its own ends, and
quotes there are those of one literal. -/
structure Apparent (e inner : List Token) (text : List Char) : Prop where
  parens : (∃ cs, Token.sourceText e = '(' :: (cs ++ [')'])) → IsWrapped e
  tight : Text.trim text = Token.sourceText inner
  quotes : ∀ content, Text.Quoted (Token.sourceText inner) content →
    ∃ t, inner = [t] ∧ t.Quotes content

theorem exists_unwraps (e : List Token) : ∃ inner text, Unwraps e inner text := by
  by_cases h : IsWrapped e
  · obtain ⟨o, c, inner, ho, hc, hinner, rfl⟩ := h
    exact ⟨inner, _, .wrapped ho hc hinner⟩
  · exact ⟨e, _, .bare h⟩

theorem Unwraps.unique {e inner inner' : List Token} {text text' : List Char}
    (h : Unwraps e inner text) (k : Unwraps e inner' text') : inner = inner' ∧ text = text' := by
  cases h with
  | wrapped ho hc hinner =>
    generalize heq : _ :: (inner ++ [_]) = e at k
    cases k with
    | wrapped =>
      obtain ⟨rfl, hrest⟩ := List.cons.inj heq
      obtain ⟨rfl, hlast⟩ := List.append_inj' hrest rfl
      obtain rfl := (List.cons.inj hlast).1
      exact ⟨rfl, rfl⟩
    | bare hbare => exact absurd ⟨_, _, inner, ho, hc, hinner, heq.symm⟩ hbare
  | bare hbare =>
    cases k with
    | wrapped ho hc hinner => exact absurd ⟨_, _, inner', ho, hc, hinner, rfl⟩ hbare
    | bare => exact ⟨rfl, rfl⟩

theorem exists_due {inner : List Token} (h : inner ≠ []) : ∃ due, Due inner due := by
  by_cases hliteral : ∃ t content, inner = [t] ∧ t.Quotes content
  · obtain ⟨t, content, rfl, hquotes⟩ := hliteral
    exact ⟨_, .literal hquotes⟩
  · exact ⟨_, .source h fun t content heq hquotes => hliteral ⟨t, content, heq, hquotes⟩⟩

theorem Due.unique {inner : List Token} {due due' : List Char} (h : Due inner due)
    (k : Due inner due') : due = due' := by
  cases h with
  | literal hquotes =>
    cases k with
    | literal hquotes' => rw [hquotes.2.unique hquotes'.2]
    | source _ hnone => exact absurd hquotes (hnone _ _ rfl)
  | source _ hnone =>
    cases k with
    | literal hquotes => exact absurd hquotes (hnone _ _ rfl)
    | source => rfl

namespace Token

theorem sourceText_singleton (t : Token) : sourceText [t] = t.text.toList := List.append_nil _

theorem toList_of_is {t : Token} {p : String} (h : t.is p = true) : t.text.toList = p.toList := by
  rw [(is_eq_true.mp h).2]

/-- The source text in parentheses is what stands between them. -/
theorem sourceText_wrapped {o c : Token} (ho : o.is "(" = true) (hc : c.is ")" = true)
    (inner : List Token) :
    sourceText (o :: (inner ++ [c])) = '(' :: ((gapped inner ++ c.lead.toList) ++ [')']) := by
  rw [sourceText, toList_of_is ho, gapped_append, gapped_cons, sourceText, toList_of_is hc,
    List.append_assoc]
  rfl

/-- Tokens stand in their text behind what was skipped in front of the first one. -/
theorem gapped_eq {inner : List Token} (h : inner ≠ []) :
    ∃ t ∈ inner, gapped inner = t.lead.toList ++ sourceText inner := by
  obtain ⟨t, ts, rfl⟩ := List.exists_cons_of_ne_nil h
  exact ⟨t, List.mem_cons_self, gapped_cons t ts⟩

theorem sourceText_ne_nil {inner : List Token} (h : inner ≠ []) (hinner : ∀ t ∈ inner, t.Divided) :
    sourceText inner ≠ [] := by
  obtain ⟨t, ts, rfl⟩ := List.exists_cons_of_ne_nil h
  exact List.append_ne_nil_of_left_ne_nil (hinner t List.mem_cons_self).text _

end Token

theorem Due.ne_nil {inner : List Token} {due : List Char} (h : Due inner due) : inner ≠ [] := by
  cases h with
  | literal => exact List.cons_ne_nil _ _
  | source hne => exact hne

/-! ### The text that is recorded -/

namespace Reading

open Text

/-- What is recorded for a text that no parentheses are taken off from. -/
def recorded (cs : List Char) : Option String :=
  if cs.isEmpty then none else some (Reader.unquote (String.ofList cs))

/-- What is recorded for an expression. -/
def recordedInclude (e : List Token) : Option String :=
  includeText (String.ofList (trim (Token.sourceText e)))

theorem isEmpty_ofList (cs : List Char) : (String.ofList cs).isEmpty = cs.isEmpty := by
  rw [Bool.eq_iff_iff, String.isEmpty_iff, List.isEmpty_iff, String.ofList_eq_empty_iff]

theorem includeText_eq (cs : List Char) : includeText (String.ofList cs) =
    recorded (((after? ['('] cs).bind (before? [')'])).elim cs trim) := by
  rw [includeText, String.toList_ofList]
  cases (after? ['('] cs).bind (before? [')']) with
  | none => rw [Option.elim_none, recorded, ← isEmpty_ofList]
  | some inner => rw [Option.elim_some, recorded, ← isEmpty_ofList]

theorem includeText_parens (cs : List Char) :
    includeText (String.ofList ('(' :: (cs ++ [')']))) = recorded (trim cs) := by
  have hafter : after? ['('] ('(' :: (cs ++ [')'])) = some (cs ++ [')']) := after?_append ['('] _
  have hbefore : before? [')'] (cs ++ [')']) = some cs := by
    rw [before?, if_pos (by simp [endsWith])]
    simp
  rw [includeText_eq, hafter, Option.bind_some, hbefore, Option.elim_some]

theorem includeText_bare {cs : List Char} (h : ∀ inner, cs ≠ '(' :: (inner ++ [')'])) :
    includeText (String.ofList cs) = recorded cs := by
  have hnone : (after? ['('] cs).bind (before? [')']) = none := by
    rw [Option.bind_eq_none_iff]
    intro rest hrest
    rw [after?_eq_some_iff] at hrest
    rw [before?]
    apply if_neg
    rw [endsWith, List.isSuffixOf_iff_suffix]
    rintro ⟨inner, rfl⟩
    exact h inner hrest
  rw [includeText_eq, hnone, Option.elim_none]

theorem count_due {inner : List Token} {due : List Char} (h : Due inner due) {c : Char}
    (hc : c ≠ '\\') : due.count c ≤ (Token.sourceText inner).count c := by
  cases h with
  | literal hquotes =>
    obtain ⟨q, -, heq⟩ := hquotes.2
    rw [Token.sourceText_singleton, heq, count_undoubled hc]
    apply List.Sublist.count_le
    exact ((List.sublist_append_left _ _).cons q)
  | source => exact Nat.le_refl _

/-- Whatever is around an expression in its text, if it is more than blanks then it has a mark, and
this mark is recorded as well. So what is recorded is due only if nothing but blanks is around. -/
theorem recorded_eq_some_iff {inner : List Token} {due cs : List Char}
    (hinner : ∀ t ∈ inner, t.Divided) (hdue : Due inner due)
    (hcs : cs = trim (Token.sourceText inner) ∨
      ∃ c ∈ Lexer.marks, (Token.sourceText inner).count c < cs.count c) :
    recorded cs = some (String.ofList due) ↔ cs = Token.sourceText inner ∧
      ∀ content, Quoted (Token.sourceText inner) content → ∃ t, inner = [t] ∧ t.Quotes content := by
  constructor
  · intro h
    have hread : Reader.unquote (String.ofList cs) = String.ofList due := by
      rw [recorded] at h
      split at h
      · cases h
      · exact Option.some.inj h
    rcases hcs with rfl | ⟨c, hmark, hcount⟩
    · cases hdue with
      | literal hquotes =>
        rw [Token.sourceText_singleton, hquotes.2.isTrimmed.trim_eq]
        exact ⟨rfl, fun content hquoted => ⟨_, rfl, hquotes.1, hquoted⟩⟩
      | source =>
        -- nothing may be taken off, neither blanks nor quotes
        have hle := (trim_sublist (Token.sourceText inner)).length_le
        obtain ⟨hshorter, hplain⟩ := Reader.length_unquote (trim (Token.sourceText inner))
        rw [hread, String.toList_ofList] at hshorter hplain
        have htrim : trim (Token.sourceText inner) = Token.sourceText inner :=
          (trim_sublist _).eq_of_length (Nat.le_antisymm hle hshorter)
        rw [htrim] at hplain
        exact ⟨htrim, fun content hquoted => absurd hquoted (hplain rfl content)⟩
    · have hother : Lexer.isQuote c = false ∧ c ≠ '\\' := by
        simp only [Lexer.marks, List.mem_cons, List.not_mem_nil, or_false] at hmark
        rcases hmark with rfl | rfl | rfl <;> decide
      have hkept := Reader.count_unquote hother.1 hother.2 cs
      rw [hread, String.toList_ofList] at hkept
      have hle := count_due hdue hother.2
      omega
  · rintro ⟨rfl, hquotes⟩
    have hne := Token.sourceText_ne_nil hdue.ne_nil hinner
    rw [recorded, if_neg (by simpa using hne)]
    apply congrArg some
    cases hdue with
    | literal hliteral =>
      rw [Token.sourceText_singleton]
      exact Reader.unquote_of_quoted hliteral.2
    | source _ hnone =>
      apply Reader.unquote_of_not_quoted
      intro content hquoted
      obtain ⟨t, heq, hliteral⟩ := hquotes content hquoted
      exact hnone t content heq hliteral

/-- The include of an expression is recorded as the text that is due if and only if the expression
is apparent. -/
theorem recordedInclude_eq_iff {e inner : List Token} {text due : List Char}
    (he : ∀ t ∈ e, t.Divided) (hinner : Unwraps e inner text) (hdue : Due inner due) :
    recordedInclude e = some (String.ofList due) ↔ Apparent e inner text := by
  rw [recordedInclude]
  cases hinner with
  | @wrapped o c inner ho hc hnested =>
    obtain ⟨first, hfirst, hgapped⟩ := Token.gapped_eq hdue.ne_nil
    have hdivided : ∀ t ∈ inner, t.Divided := fun t ht => he t (by simp [ht])
    have hmarked := Lexer.trim_or_marked (Token.sourceText inner) (hdivided first hfirst).lead
      (he c (by simp)).lead
    rw [← hgapped] at hmarked
    rw [Token.sourceText_wrapped ho hc, (isTrimmed_between (by decide) (by decide) _).trim_eq,
      includeText_parens, recorded_eq_some_iff hdivided hdue hmarked]
    constructor
    · exact fun h => ⟨fun _ => ⟨o, c, inner, ho, hc, hnested, rfl⟩, h.1, h.2⟩
    · exact fun h => ⟨h.tight, h.quotes⟩
  | bare hbare =>
    by_cases hparens : ∃ cs, trim (Token.sourceText e) = '(' :: (cs ++ [')'])
    · obtain ⟨cs, hcs⟩ := hparens
      constructor
      · -- too much is taken off
        intro h
        rw [hcs, includeText_parens, recorded] at h
        split at h
        · cases h
        have hread := congrArg String.toList (Option.some.inj h)
        rw [String.toList_ofList] at hread
        cases hdue with
        | literal hquotes =>
          have htrim := hquotes.2.isTrimmed.trim_eq
          obtain ⟨q, hq, heq⟩ := hquotes.2
          rw [Token.sourceText_singleton, htrim, heq] at hcs
          rw [(List.cons.inj hcs).1] at hq
          exact absurd hq (by decide)
        | source =>
          have hlength := (Reader.length_unquote (trim cs)).1
          have hinner := (trim_sublist cs).length_le
          have houter := (trim_sublist (Token.sourceText e)).length_le
          rw [hread] at hlength
          rw [hcs, List.length_cons, List.length_append] at houter
          omega
      · intro h
        have htight := h.tight
        rw [htight] at hcs
        exact absurd (h.parens ⟨cs, hcs⟩) hbare
    · rw [includeText_bare fun cs hcs => hparens ⟨cs, hcs⟩,
        recorded_eq_some_iff he hdue (.inl rfl)]
      constructor
      · intro h
        refine ⟨fun hwrapped => ?_, h.1, h.2⟩
        rw [← h.1] at hwrapped
        exact absurd hwrapped hparens
      · exact fun h => ⟨h.tight, h.quotes⟩

end Reading

/-! ### What no other statement records -/

/-- Reading on only moves the place, as far as the file goes. -/
theorem Reading.Moves.exists_file {s u : Reading} (h : s.Moves u) :
    ∃ problems, u.file = { s.file with problems := problems } := by
  obtain ⟨-, problems, hu⟩ := h
  exact ⟨problems, by rw [hu]⟩

theorem Reading.Moves.includes {s u : Reading} (h : s.Moves u) :
    u.file.includes = s.file.includes := by
  obtain ⟨problems, hfile⟩ := h.exists_file
  rw [hfile]

namespace BodyReading

variable (b : BodyReading)

/-- A member of a body adds nothing to the file but problems. -/
theorem exists_file_token (t : Token) :
    ∃ problems, (b.token t).state.file = { b.state.file with problems := problems } := by
  have hturn := b.turn_token t
  revert hturn
  generalize b.token t = d
  intro hturn
  cases hturn with
  | docComment | case | properties | ends | collects => exact ⟨b.state.file.problems, rfl⟩
  | traits =>
    exact ((Reading.moves_references b.state).trans
      (Reading.moves_skipBody b.state.references.2)).exists_file
  | constants => exact (Reading.moves_constants b.state.forget).exists_file
  | method =>
    rw [method]
    dsimp only
    split
    · exact ⟨b.state.file.problems, rfl⟩
    · next name c _ =>
      exact (Reading.moves_signature (((b.state.moveTo
        ((b.state.cursor.eatPunct "&").getD b.state.cursor)).forget).moveTo c)
        b.state.pending).exists_file

theorem exists_file_untilClose (line fuel : Nat) : ∃ problems,
    (untilClose line fuel b).state.file = { b.state.file with problems := problems } := by
  induction fuel generalizing b with
  | zero => exact ⟨b.state.file.problems, rfl⟩
  | succ fuel ih =>
    rw [untilClose]
    split
    · exact (Reading.moves_report b.state line _).exists_file
    · next t _ =>
      dsimp only
      split
      · exact ⟨b.state.file.problems, rfl⟩
      · obtain ⟨problems, htoken⟩ := exists_file_token { b with state := b.state.step } t
        obtain ⟨others, hrest⟩ := ih (BodyReading.token { b with state := b.state.step } t)
        exact ⟨others, by rw [hrest, htoken]; rfl⟩

end BodyReading

namespace Reading

open Cursor

variable {s : Reading} {t : Token}

/-- What was read of a class-like in front of its body has the includes that there were, and its
entry adds none. -/
def IncludesUpTo (includes : List String) (r : Reading ⊕ Head) : Prop :=
  r.elim (fun u => u.file.includes = includes) fun h => h.state.file.includes = includes ∧
    ∀ members traits f, (h.entry members traits f).includes = f.includes

theorem IncludesUpTo.read {includes : List String} {r : Reading ⊕ Head}
    (h : IncludesUpTo includes r) : (r.elim id Head.read).file.includes = includes := by
  cases r with
  | inl u => exact h
  | inr head =>
    obtain ⟨hfile, hentry⟩ := h
    show head.read.file.includes = includes
    rw [Head.read, classBody]
    dsimp only
    cases hinner : head.state.cursor.eat Token.opensBlock with
    | none => exact hfile
    | some inner =>
      obtain ⟨problems, hbody⟩ := BodyReading.exists_file_untilClose
        { owner := head.owner
          isInterface := head.isInterface
          state := head.state.moveTo inner } head.state.cursor.line inner.fuel
      dsimp only
      rw [hentry, hbody]
      exact hfile

theorem includesUpTo_classHead (s : Reading) : IncludesUpTo s.file.includes s.classHead := by
  rw [classHead]
  dsimp only
  split
  · rfl
  · next c _ =>
    split
    · rfl
    · next name c _ =>
      exact ⟨(moves_listBehind (s.forget.moveTo (s.parentAt c).2) "implements").includes,
        fun members traits f => rfl⟩

theorem includesUpTo_interfaceHead (s : Reading) :
    IncludesUpTo s.file.includes s.interfaceHead := by
  rw [interfaceHead]
  dsimp only
  split
  · rfl
  · next name c _ =>
    exact ⟨(moves_listBehind (s.forget.moveTo c) "extends").includes,
      fun members traits f => rfl⟩

theorem includesUpTo_traitHead (s : Reading) : IncludesUpTo s.file.includes s.traitHead := by
  rw [traitHead]
  dsimp only
  split
  · rfl
  · exact ⟨rfl, fun members traits f => rfl⟩

/-- Only an include statement records includes. -/
theorem includes_tokenAhead (hpass : IsInclude t → s.behindAccess = true) :
    (s.tokenAhead t).file.includes = s.file.includes := by
  have hturn := s.turn_tokenAhead t
  revert hturn
  generalize s.tokenAhead t = u
  intro hturn
  cases hturn with
  | docComment =>
    rw [docComment]
    dsimp only
    split <;> rfl
  | closes =>
    rw [closeBlock]
    split <;> rfl
  | opens | ends | passed | enumWord => rfl
  | space =>
    rw [namespaceDeclaration]
    dsimp only
    split <;> rfl
  | imports =>
    rw [useDeclaration]
    dsimp only
    split <;> rfl
  | anonymous | enum =>
    exact (moves_skipDeclaration s.settled.forget).includes
  | «class» =>
    rw [classDeclaration_eq]
    exact (includesUpTo_classHead s.settled).read
  | interface =>
    rw [interfaceDeclaration_eq]
    exact (includesUpTo_interfaceHead s.settled).read
  | trait =>
    rw [traitDeclaration_eq]
    exact (includesUpTo_traitHead s.settled).read
  | function =>
    rw [functionDeclaration]
    dsimp only
    split
    · rfl
    · next name c _ =>
      split
      · exact (moves_signature (s.settled.forget.moveTo c) s.settled.pending).includes
      · rfl
  | constant =>
    have hadd (found : List (Token × String)) (f : File) :
        (found.foldl (fun f constant => f.addConstant
          ⟨document s.pending (.ofFqsen (s.space.join constant.1.text) s.cursor.line),
            { value := constant.2 }⟩) f).includes = f.includes := by
      induction found generalizing f with
      | nil => rfl
      | cons constant found ih => exact ih _
    exact hadd _ s.file
  | define =>
    rw [defineCall]
    dsimp only
    split
    · split <;> rfl
    · rfl
  | «include» haccess hword =>
    rw [hpass hword] at haccess
    cases haccess

/-! ### The statements that are read -/

/-- How far an expression goes: these are its tokens if those are behind it. -/
def IsExpression (e rest : List Token) : Prop := expressionWidth [] 0 (e ++ rest) = e.length

/-- The include statements that are read from a state on, by their expressions: one starts at each
include word that comes next and names no member, and goes on as far as an expression does. -/
inductive Includes : Reading → List (List Token) → Prop
  | done {s : Reading} : s.cursor.peek = none → Includes s []
  | pass {s : Reading} {t : Token} {es : List (List Token)} : s.cursor.peek = some t →
    (IsInclude t → s.behindAccess = true) → Includes (s.tokenAhead t) es → Includes s es
  | statement {s : Reading} {t : Token} {e rest : List Token} {es : List (List Token)} :
    s.cursor.rest = t :: (e ++ rest) → IsInclude t → s.behindAccess = false →
    IsExpression e rest → Includes s.includeStatement es → Includes s (e :: es)

/-- The expression of an include that is next, and what is recorded for it. -/
theorem exists_expression {rest : List Token} (hrest : s.cursor.rest = t :: rest) :
    ∃ e behind, rest = e ++ behind ∧ IsExpression e behind ∧
      s.includeStatement.file.includes = s.file.includes ++ (recordedInclude e).toList := by
  have hlength : (rest.take (expressionWidth [] 0 rest)).length = expressionWidth [] 0 rest :=
    List.length_take_of_le (expressionWidth_le [] 0 rest)
  refine ⟨rest.take (expressionWidth [] 0 rest), rest.drop (expressionWidth [] 0 rest),
    (List.take_append_drop _ _).symm, ?_, ?_⟩
  · rw [IsExpression, List.take_append_drop, hlength]
  · rw [includeStatement, step_of_rest hrest]
    rfl

/-- Reading all tokens records the include statements that are read, one by one. -/
theorem exists_includes_run {fuel : Nat} (hfuel : s.cursor.rest.length < fuel) :
    ∃ es, s.Includes es ∧
      (run fuel s).file.includes = s.file.includes ++ es.filterMap recordedInclude := by
  induction fuel generalizing s with
  | zero => exact absurd hfuel (Nat.not_lt_zero _)
  | succ fuel ih =>
    rw [run]
    cases ht : s.cursor.peek with
    | none => exact ⟨[], .done ht, (List.append_nil _).symm⟩
    | some t =>
      have hshorter := length_tokenAhead_lt ht
      obtain ⟨es, hread, hincludes⟩ := @ih (s.tokenAhead t) (by omega)
      by_cases hstatement : IsInclude t ∧ s.behindAccess = false
      · obtain ⟨hword, haccess⟩ := hstatement
        obtain ⟨rest, hrest⟩ := exists_rest_of_peek ht
        obtain ⟨e, behind, rfl, hexpression, hrecorded⟩ := exists_expression hrest
        have hturn := (Turn.include haccess hword).eq
        rw [hturn] at hread hincludes
        refine ⟨e :: es, .statement hrest hword haccess hexpression hread, ?_⟩
        dsimp only
        rw [hturn, hincludes, hrecorded, List.append_assoc]
        cases he : recordedInclude e <;> simp [he]
      · have hpass : IsInclude t → s.behindAccess = true := by
          intro hword
          by_contra haccess
          exact hstatement ⟨hword, Bool.eq_false_iff.mpr haccess⟩
        refine ⟨es, .pass ht hpass hread, ?_⟩
        dsimp only
        rw [hincludes, includes_tokenAhead hpass]

/-- The expressions are made of the tokens that are ahead. -/
theorem Includes.subset {es : List (List Token)} (h : s.Includes es) :
    ∀ e ∈ es, e ⊆ s.cursor.rest := by
  induction h with
  | done => simp
  | @pass s t es ht _ _ ih =>
    have hsuffix := (s.cursor.leads_step.trans (step_leads_tokenAhead ht)).suffix
    exact fun e he u hu => hsuffix.subset (ih e he hu)
  | @statement s t e rest es hrest hword haccess _ _ ih =>
    have hsuffix := (s.cursor.leads_step.trans (step_leads_includeStatement s)).suffix
    intro e' he'
    rcases List.mem_cons.mp he' with rfl | he'
    · rw [hrest]
      exact fun u hu => by simp [hu]
    · exact fun u hu => hsuffix.subset (ih e' he' hu)

end Reading

namespace File

/-- The includes of a file are those of the include statements that are read, in their order. One of
them is the text that is due if and only if its expression is apparent. -/
theorem includes_of_ofSource {path content : String} {f : File}
    (hf : ofSource path content = .ok f) : ∃ tokens es, Token.ofSource content = .ok tokens ∧
      Reading.Includes { cursor := { rest := tokens }
                         file := { path := path, hash := Digest.ofText content } } es ∧
      f.includes = es.filterMap Reading.recordedInclude ∧
      ∀ e ∈ es, ∃ inner text, Unwraps e inner text ∧ (inner = [] ∨ ∃ due, Due inner due ∧
        (Reading.recordedInclude e = some (String.ofList due) ↔ Apparent e inner text)) := by
  obtain ⟨tokens, htokens, rfl⟩ := ofSource_eq_ok_iff.mp hf
  obtain ⟨es, hread, hincludes⟩ := Reading.exists_includes_run
    (s := { cursor := { rest := tokens }
            file := { path := path, hash := Digest.ofText content } })
    (Nat.lt_succ_self tokens.length)
  refine ⟨tokens, es, htokens, hread, ?_, ?_⟩
  · have hreports (blocks : List OpenBlock) (s : Reading) :
        (blocks.foldl (fun s block => s.report block.line "unclosed block") s).file.includes =
          s.file.includes := by
      induction blocks generalizing s with
      | nil => rfl
      | cons block blocks ih => exact ih _
    rw [ofTokens, Reading.finish, hreports, hincludes, List.nil_append]
  · intro e he
    obtain ⟨inner, text, hinner⟩ := exists_unwraps e
    refine ⟨inner, text, hinner, ?_⟩
    by_cases hnil : inner = []
    · exact .inl hnil
    · obtain ⟨due, hdue⟩ := exists_due hnil
      have hdivided : ∀ t ∈ e, t.Divided := fun t ht =>
        Token.divided_ofSource htokens t (hread.subset e he ht)
      exact .inr ⟨due, hdue, Reading.recordedInclude_eq_iff hdivided hinner hdue⟩

/-- An include of two literals with a dot between them. -/
def joinedSource : String := "<?php include 'a' . 'b';"

def joinedExpression : List Token := [
  ⟨.literal, "'a'", " ", 1, 14, 17⟩, ⟨.punct, ".", " ", 1, 18, 19⟩,
  ⟨.literal, "'b'", " ", 1, 20, 23⟩]

/-- It has a quote at both ends, and both are taken off. -/
theorem includes_of_ofSource_joined : ∃ (f : File) (es : List (List Token)),
    ofSource "a.php" joinedSource = .ok f ∧ f.includes = ["a' . 'b"] ∧ joinedExpression ∈ es ∧
    f.includes = es.filterMap Reading.recordedInclude ∧
    Due joinedExpression (Token.sourceText joinedExpression) ∧
    String.ofList (Token.sourceText joinedExpression) = "'a' . 'b'" ∧
    ¬ Apparent joinedExpression joinedExpression (Token.sourceText joinedExpression) := by
  have htokens : Token.ofSource joinedSource = .ok (⟨.name, "include", "<?php ", 1, 6, 13⟩ ::
      (joinedExpression ++ [⟨.punct, ";", "", 1, 23, 24⟩])) := by
    decide +kernel
  have hf : (ofSource "a.php" joinedSource).map File.includes = .ok ["a' . 'b"] := by
    decide +kernel
  have hrecorded : Reading.recordedInclude joinedExpression = some "a' . 'b" := by
    decide +kernel
  have htext : String.ofList (Token.sourceText joinedExpression) = "'a' . 'b'" := by
    decide +kernel
  cases hread : ofSource "a.php" joinedSource with
  | error e => simp [hread, Except.map] at hf
  | ok f =>
    have hincludes : f.includes = ["a' . 'b"] := by simpa [hread, Except.map] using hf
    obtain ⟨tokens, es, hall, hes, hkept, hdue⟩ := includes_of_ofSource hread
    obtain rfl := Except.ok.inj (htokens.symm.trans hall)
    -- the first word is the only include
    have hmem : joinedExpression ∈ es := by
      cases hes with
      | done hpeek => cases hpeek
      | pass hpeek hpass =>
        obtain rfl := Option.some.inj hpeek
        cases hpass (.inr (.inr (.inl (by decide))))
      | @statement _ t e rest es hrest hword _ hexpression =>
        obtain ⟨-, hbehind⟩ := List.cons.inj hrest
        rw [Reading.IsExpression, ← hbehind] at hexpression
        have hlength : e.length = joinedExpression.length := by
          rw [← hexpression]
          decide +kernel
        rw [(List.append_inj hbehind hlength.symm).1]
        exact List.mem_cons_self
    have hbare : ¬ IsWrapped joinedExpression := by
      rintro ⟨o, c, inner, ho, -, -, heq⟩
      rw [← (List.cons.inj heq).1] at ho
      exact absurd ho (by decide)
    have hsource : Due joinedExpression (Token.sourceText joinedExpression) := by
      apply Due.source (List.cons_ne_nil _ _)
      intro t content heq
      cases heq
    refine ⟨f, es, rfl, hincludes, hmem, hkept, hsource, htext, ?_⟩
    intro happarent
    obtain ⟨inner, text, hinner, hempty | ⟨due, hd, hiff⟩⟩ := hdue _ hmem
    · rw [← ((Unwraps.bare hbare).unique hinner).1] at hempty
      cases hempty
    · obtain ⟨rfl, rfl⟩ := (Unwraps.bare hbare).unique hinner
      obtain rfl := hsource.unique hd
      have hsame := hiff.mpr happarent
      rw [hrecorded, htext] at hsame
      exact absurd hsame (by decide)

end File

end ApiDoc
