import ApiDoc.Proofs.Cuts
import ApiDoc.Proofs.Lookups

/-!
# Where tokens lie

The pieces into which a source is divided lie side by side, so a token is placed by counting the
bytes and newlines of the pieces before it. `Token.LiesIn` says what its numbers mean in terms of the
source alone. `Unended` says, without reference to the lexer, what it means that a comment, string,
heredoc or attribute which starts a text is not ended in it; an error is reported at the line where
such a piece starts.
-/

namespace ApiDoc

theorem InlineTag.byteLength_eq (cs : List Char) :
    byteLength cs = (String.ofList cs).utf8ByteSize := by
  induction cs with
  | nil => rfl
  | cons c cs ih =>
    have hcons : String.ofList (c :: cs) = String.singleton c ++ String.ofList cs := by
      rw [← String.toList_inj]
      simp
    rw [hcons, String.utf8ByteSize_append, String.utf8ByteSize_singleton, ← ih]
    rfl

/-! ### Places of tokens -/

/-- The token is a part of the source, its positions are the byte offsets of the ends of that part,
and its line is one more than the number of newlines in front of it. -/
structure Token.LiesIn (source : String) (t : Token) : Prop where
  nonempty : t.start < t.stop
  within : t.stop ≤ source.utf8ByteSize
  placed : ∃ front back : String, source = front ++ t.text ++ back ∧
    t.start = front.utf8ByteSize ∧ t.stop = (front ++ t.text).utf8ByteSize ∧
    t.line = 1 + Lexer.newlines front.toList

/-- The token ends where the other starts, or before. -/
def Token.Before (t u : Token) : Prop := t.stop ≤ u.start

theorem Token.LiesIn.of_split {source : String} {t : Token} {front back : List Char}
    (hsource : source.toList = front ++ t.text.toList ++ back) (htext : t.text ≠ "")
    (hstart : t.start = (String.ofList front).utf8ByteSize)
    (hstop : t.stop = t.start + t.text.utf8ByteSize)
    (hline : t.line = 1 + Lexer.newlines front) : t.LiesIn source := by
  have hwhole : source = String.ofList front ++ t.text ++ String.ofList back := by
    rw [← String.toList_inj]
    simpa using hsource
  have hpos : 0 < t.text.utf8ByteSize := by
    rw [Nat.pos_iff_ne_zero, ne_eq, String.utf8ByteSize_eq_zero_iff]
    exact htext
  refine ⟨by omega, ?_, String.ofList front, String.ofList back, hwhole, hstart, ?_, ?_⟩
  · rw [hwhole, String.utf8ByteSize_append, String.utf8ByteSize_append]
    omega
  · rw [hstop, hstart, String.utf8ByteSize_append]
  · rw [hline, String.toList_ofList]

namespace Lexer

theorem newlines_append (a b : List Char) : newlines (a ++ b) = newlines a + newlines b :=
  List.count_append

/-- No piece is empty. -/
theorem text_ne_nil {mode : Mode} {cs : List Char} (hok : (divide mode cs).fault = none) :
    ∀ piece ∈ (divide mode cs).pieces, piece.text ≠ [] := by
  fun_induction divide mode cs with
  | case1 => simp
  | case2 mode c cs fault seen hw => simp at hok
  | case3 mode c cs kind n hw rest ih =>
    rintro piece hpiece
    rcases List.mem_cons.mp hpiece with rfl | hpiece
    · simp
    · exact ih hok piece hpiece

/-- Tokens lie where the counting of bytes and newlines puts them, if it started right. -/
theorem liesIn_place {source : String} {pieces : List Piece} {lead front : List Char}
    {offset line : Nat} (hsource : source.toList = front ++ pieces.flatMap Piece.text)
    (hnonempty : ∀ piece ∈ pieces, piece.text ≠ [])
    (hoffset : offset = (String.ofList front).utf8ByteSize) (hline : line = 1 + newlines front) :
    ∀ t ∈ place lead offset line pieces, t.LiesIn source := by
  induction pieces generalizing lead front offset line with
  | nil => simp [place]
  | cons piece rest ih =>
    obtain ⟨kind, text⟩ := piece
    have hrest : source.toList = front ++ text ++ rest.flatMap Piece.text := by
      rw [hsource, List.flatMap_cons, List.append_assoc]
    have hstop : offset + InlineTag.byteLength text =
        (String.ofList (front ++ text)).utf8ByteSize := by
      rw [String.ofList_append, String.utf8ByteSize_append, ← hoffset, ← InlineTag.byteLength_eq]
    have hnext : line + newlines text = 1 + newlines (front ++ text) := by
      rw [hline, newlines_append, Nat.add_assoc]
    have hothers (p : Piece) (hp : p ∈ rest) := hnonempty p (List.mem_cons_of_mem _ hp)
    cases kind with
    | none => exact ih hrest hothers hstop hnext
    | some kind =>
      intro t ht
      rcases List.mem_cons.mp ht with rfl | ht
      · have hhere : source.toList =
            front ++ (String.ofList text).toList ++ rest.flatMap Piece.text := by
          rw [String.toList_ofList, hrest]
        refine .of_split hhere ?_ hoffset ?_ hline
        · rw [ne_eq, ← String.toList_inj, String.toList_ofList]
          exact hnonempty ⟨some kind, text⟩ List.mem_cons_self
        · exact congrArg (offset + ·) (InlineTag.byteLength_eq text)
      · exact ih hrest hothers hstop hnext t ht

/-- Tokens come in the order of their positions. -/
theorem pairwise_place (lead : List Char) (offset line : Nat) (pieces : List Piece) :
    (place lead offset line pieces).Pairwise Token.Before ∧
      ∀ t ∈ place lead offset line pieces, offset ≤ t.start := by
  fun_induction place lead offset line pieces with
  | case1 => simp
  | case2 lead offset line text rest ih =>
    refine ⟨ih.1, fun t ht => ?_⟩
    have := ih.2 t ht
    omega
  | case3 lead offset line kind text rest stop ih =>
    refine ⟨List.pairwise_cons.mpr ⟨fun t ht => ih.2 t ht, ih.1⟩, fun t ht => ?_⟩
    rcases List.mem_cons.mp ht with rfl | ht
    · exact Nat.le_refl _
    · have hle := ih.2 t ht
      exact Nat.le_trans (Nat.le_add_right _ _) hle

/-! ### Pieces that are not ended -/

/-- What may stand between quotes: characters other than the quote, and any character behind a
backslash. -/
inductive Quoted (quote : Char) : List Char → Prop
  | nil : Quoted quote []
  | plain {c : Char} {cs : List Char} :
    c ≠ '\\' → c ≠ quote → Quoted quote cs → Quoted quote (c :: cs)
  | escaped {c : Char} {cs : List Char} : Quoted quote cs → Quoted quote ('\\' :: c :: cs)

/-- A line of the text starts, after blanks, with the label and goes on with no character of a
name. -/
def LabelCloses (label cs : List Char) : Prop :=
  ∃ front indent back, cs = front ++ '\n' :: (indent ++ (label ++ back)) ∧
    (∀ c ∈ indent, isTabOrSpace c = true) ∧ back.head?.any isNameChar = false

/-- The text goes through an attribute without leaving it: `Opened n cs m` says that `n` brackets
are open in front of `cs` and `m` behind it. Brackets inside strings do not count. -/
inductive Opened : Nat → List Char → Nat → Prop
  | nil {n : Nat} : Opened n [] n
  | string {quote : Char} {inner cs : List Char} {n m : Nat} : isQuote quote = true →
    Quoted quote inner → Opened n cs m → Opened n (quote :: (inner ++ quote :: cs)) m
  | opening {cs : List Char} {n m : Nat} : Opened (n + 1) cs m → Opened n ('[' :: cs) m
  | closing {cs : List Char} {n m : Nat} :
    0 < n → Opened n cs m → Opened (n + 1) (']' :: cs) m
  | other {c : Char} {cs : List Char} {n m : Nat} :
    isQuote c = false → c ≠ '[' → c ≠ ']' → Opened n cs m → Opened n (c :: cs) m

/-- The quotes that may stand around the label of a heredoc. -/
def IsLabelQuote (quote : List Char) : Prop := quote = [] ∨ ∃ q, isQuote q = true ∧ quote = [q]

/-- The text starts with the piece that a fault is about, and that piece is not ended in it. -/
inductive Unended : LexFault → List Char → Prop
  | comment {cs : List Char} : ¬ ['*', '/'] <:+: cs → Unended .comment ('/' :: '*' :: cs)
  | string {quote : Char} {cs : List Char} : (isQuote quote = true ∨ quote = '\x60') →
    (∀ inner rest, cs = inner ++ quote :: rest → ¬ Quoted quote inner) →
    Unended .string (quote :: cs)
  | label {gap quote cs : List Char} : (∀ c ∈ gap, isTabOrSpace c = true) → IsLabelQuote quote →
    cs.head?.any isNameChar = false → Unended .label ('<' :: '<' :: '<' :: (gap ++ (quote ++ cs)))
  | openQuote {gap label cs : List Char} {quote : Char} : (∀ c ∈ gap, isTabOrSpace c = true) →
    isQuote quote = true → label ≠ [] → (∀ c ∈ label, isNameChar c = true) →
    cs.head? ≠ some quote → cs.head?.any isNameChar = false →
    Unended .heredoc ('<' :: '<' :: '<' :: (gap ++ quote :: (label ++ cs)))
  | heredoc {gap quote label cs : List Char} : (∀ c ∈ gap, isTabOrSpace c = true) →
    IsLabelQuote quote → label ≠ [] → (∀ c ∈ label, isNameChar c = true) → ¬ LabelCloses label cs →
    Unended .heredoc ('<' :: '<' :: '<' :: (gap ++ (quote ++ (label ++ (quote ++ cs)))))
  | attribute {cs : List Char} {n : Nat} : Opened 1 cs n → Unended .attribute ('#' :: '[' :: cs)

theorem ne_backslash_of_isQuote {q : Char} (h : isQuote q = true ∨ q = '\x60') : q ≠ '\\' := by
  rintro rfl
  revert h
  decide

/-- A string goes up to the first quote that is not behind a backslash. -/
theorem stringWidth_eq_some_iff {quote : Char} (hquote : quote ≠ '\\') {cs : List Char} {n : Nat} :
    stringWidth quote cs = some n ↔
      ∃ inner rest, cs = inner ++ quote :: rest ∧ Quoted quote inner ∧ n = inner.length + 1 := by
  constructor
  · intro h
    fun_induction stringWidth quote cs generalizing n with
    | case1 => simp at h
    | case2 c hc =>
      obtain rfl : c = quote := by simpa using hc
      exact ⟨[], [], rfl, .nil, by simpa [eq_comm] using h⟩
    | case3 => simp at h
    | case4 c d cs hc ih =>
      obtain rfl : c = '\\' := by simpa using hc
      obtain ⟨m, hm, rfl⟩ := Option.map_eq_some_iff.mp h
      obtain ⟨inner, rest, rfl, hinner, rfl⟩ := ih hm
      exact ⟨'\\' :: d :: inner, rest, rfl, .escaped hinner, rfl⟩
    | case5 c d cs hc hq =>
      obtain rfl : c = quote := by simpa using hq
      exact ⟨[], d :: cs, rfl, .nil, by simpa [eq_comm] using h⟩
    | case6 c d cs hc hq ih =>
      obtain ⟨m, hm, rfl⟩ := Option.map_eq_some_iff.mp h
      obtain ⟨inner, rest, heq, hinner, rfl⟩ := ih hm
      refine ⟨c :: inner, rest, by rw [heq, List.cons_append], .plain ?_ ?_ hinner, rfl⟩
      · simpa using hc
      · simpa using hq
  · rintro ⟨inner, rest, rfl, hinner, rfl⟩
    induction hinner with
    | nil => cases rest <;> simp [stringWidth, hquote]
    | @plain c cs hslash hne hcs ih =>
      cases htail : cs ++ quote :: rest with
      | nil => simp at htail
      | cons d ds =>
        rw [htail] at ih
        simp [htail, stringWidth, hslash, hne, ih]
    | escaped hcs ih => simp [stringWidth, ih]

/-- Without such a quote a string is not ended. -/
theorem not_quoted_of_stringWidth {quote : Char} (hquote : quote ≠ '\\') {cs : List Char}
    (h : stringWidth quote cs = none) (inner rest : List Char) (hcs : cs = inner ++ quote :: rest) :
    ¬ Quoted quote inner := by
  intro hinner
  have hsome := (stringWidth_eq_some_iff hquote).mpr ⟨inner, rest, hcs, hinner, rfl⟩
  rw [h] at hsome
  simp at hsome

theorem isNameChar_false_of_isTabOrSpace {c : Char} (h : isTabOrSpace c = true) :
    isNameChar c = false := by
  rcases (by simpa [isTabOrSpace] using h : c = ' ' ∨ c = '\t') with rfl | rfl <;> decide

/-- What follows blanks is found by dropping them, if it starts with a character of a name. -/
theorem span_indent {indent label : List Char} (hindent : ∀ c ∈ indent, isTabOrSpace c = true)
    (hlabel : label ≠ []) (hname : ∀ c ∈ label, isNameChar c = true) (back : List Char) :
    (indent ++ (label ++ back)).takeWhile isTabOrSpace = indent ∧
      (indent ++ (label ++ back)).dropWhile isTabOrSpace = label ++ back := by
  refine InlineTag.span_eq hindent fun c hc => ?_
  obtain ⟨d, more, rfl⟩ := List.exists_cons_of_ne_nil hlabel
  obtain rfl : d = c := by simpa using hc
  cases hblank : isTabOrSpace d with
  | false => rfl
  | true => simpa [isNameChar_false_of_isTabOrSpace hblank] using hname d List.mem_cons_self

/-- A line that closes a heredoc is found, or one before it. -/
theorem isSome_heredocBodyWidth {label : List Char} (hlabel : label ≠ [])
    (hname : ∀ c ∈ label, isNameChar c = true) {cs : List Char} (h : LabelCloses label cs) :
    (heredocBodyWidth label cs).isSome := by
  obtain ⟨front, indent, back, rfl, hindent, hback⟩ := h
  induction front with
  | nil =>
    obtain ⟨htake, hdrop⟩ := span_indent hindent hlabel hname back
    have hstarts : Text.startsWith label (label ++ back) = true :=
      Text.startsWith_iff.mpr (List.prefix_append _ _)
    simp [heredocBodyWidth, htake, hdrop, hstarts, hback]
  | cons c front ih =>
    rw [List.cons_append, heredocBodyWidth]
    split
    · rfl
    · rwa [Option.isSome_map]

/-- An attribute without an end is open to the end of the text; if it is a string in it that has no
end, the attribute is open up to that string. -/
theorem unended_of_attributeWidth {depth seen : Nat} {cs : List Char} {fault : LexFault}
    {width : Nat} (hdepth : 0 < depth) (h : attributeWidth depth seen cs = .error (fault, width)) :
    (fault = .attribute ∧ width = 0 ∧ ∃ n, Opened depth cs n) ∨
      (∃ inner rest, cs = inner ++ rest ∧ width = seen + inner.length ∧ Unended fault rest) := by
  fun_induction attributeWidth depth seen cs with
  | case1 depth seen =>
    obtain ⟨rfl, rfl⟩ : LexFault.attribute = fault ∧ 0 = width := by simpa using h
    exact .inl ⟨rfl, rfl, depth, .nil⟩
  | case2 depth seen c cs hc n hn ih =>
    have hquote := ne_backslash_of_isQuote (.inl hc)
    obtain ⟨inner, rest, rfl, hinner, rfl⟩ := (stringWidth_eq_some_iff hquote).mp hn
    have hdrop : (inner ++ c :: rest).drop (inner.length + 1) = rest := by simp
    rw [hdrop] at h ih
    rcases ih hdepth h with ⟨rfl, rfl, m, hm⟩ | ⟨more, last, rfl, rfl, hlast⟩
    · exact .inl ⟨rfl, rfl, m, .string hc hinner hm⟩
    · refine .inr ⟨c :: inner ++ c :: more, last, by simp, ?_, hlast⟩
      simp only [List.length_append, List.length_cons]
      omega
  | case3 depth seen c cs hc hn =>
    obtain ⟨rfl, rfl⟩ : LexFault.string = fault ∧ seen = width := by simpa using h
    have hquote := ne_backslash_of_isQuote (.inl hc)
    exact .inr ⟨[], c :: cs, rfl, rfl, .string (.inl hc) (not_quoted_of_stringWidth hquote hn)⟩
  | case4 depth seen c cs hc hopen ih =>
    obtain rfl : c = '[' := by simpa using hopen
    rcases ih (Nat.succ_pos _) h with ⟨rfl, rfl, m, hm⟩ | ⟨inner, rest, rfl, rfl, hrest⟩
    · exact .inl ⟨rfl, rfl, m, .opening hm⟩
    · exact .inr ⟨'[' :: inner, rest, rfl, by simp only [List.length_cons]; omega, hrest⟩
  | case5 => simp at h
  | case6 depth seen c cs hc hopen hclose hlast ih =>
    obtain rfl : c = ']' := by simpa using hclose
    have hpos : 0 < depth - 1 := by omega
    rcases ih hpos h with ⟨rfl, rfl, m, hm⟩ | ⟨inner, rest, rfl, rfl, hrest⟩
    · have hclosing := Opened.closing hpos hm
      rw [Nat.sub_add_cancel hdepth] at hclosing
      exact .inl ⟨rfl, rfl, m, hclosing⟩
    · exact .inr ⟨']' :: inner, rest, rfl, by simp only [List.length_cons]; omega, hrest⟩
  | case7 depth seen c cs hc hopen hclose ih =>
    rcases ih hdepth h with ⟨rfl, rfl, m, hm⟩ | ⟨inner, rest, rfl, rfl, hrest⟩
    · refine .inl ⟨rfl, rfl, m, .other ?_ ?_ ?_ hm⟩
      · simpa using hc
      · simpa using hopen
      · simpa using hclose
    · exact .inr ⟨c :: inner, rest, rfl, by simp only [List.length_cons]; omega, hrest⟩

/-- `heredocWidth` behind the opening: the quote of the label, the label and what follows it. -/
def openedWidth (gap : Nat) (quote : Option Char) (label rest : List Char) :
    Except LexFault Nat :=
  if label.isEmpty then .error .label
  else
    match quote with
    | none =>
      match heredocBodyWidth label rest with
      | some n => .ok (gap + label.length + n)
      | none => .error .heredoc
    | some q =>
      if rest.head? == some q then
        match heredocBodyWidth label (rest.drop 1) with
        | some n => .ok (gap + label.length + 2 + n)
        | none => .error .heredoc
      else .error .heredoc

theorem forall_takeWhile {p : Char → Bool} {cs : List Char} : ∀ c ∈ cs.takeWhile p, p c = true :=
  List.all_eq_true.mp List.all_takeWhile

/-- Every text opens a heredoc with blanks, perhaps a quote, and a label, which may be empty. -/
theorem exists_opening (cs : List Char) : ∃ gap quote label rest,
    cs = gap ++ (quote ++ (label ++ rest)) ∧ (∀ c ∈ gap, isTabOrSpace c = true) ∧
    IsLabelQuote quote ∧ (∀ c ∈ label, isNameChar c = true) ∧
    rest.head?.any isNameChar = false ∧
    heredocWidth cs = openedWidth gap.length quote.head? label rest := by
  obtain ⟨quote, labelled, hopened, hquote, hhead, hlabelled⟩ : ∃ quote labelled,
      cs.dropWhile isTabOrSpace = quote ++ labelled ∧ IsLabelQuote quote ∧
      (cs.dropWhile isTabOrSpace).head?.filter isQuote = quote.head? ∧
      (if ((cs.dropWhile isTabOrSpace).head?.filter isQuote).isSome then
        (cs.dropWhile isTabOrSpace).drop 1 else cs.dropWhile isTabOrSpace) = labelled := by
    cases cs.dropWhile isTabOrSpace with
    | nil => exact ⟨[], [], rfl, .inl rfl, rfl, rfl⟩
    | cons c opened =>
      cases hc : isQuote c with
      | true =>
        exact ⟨[c], opened, rfl, .inr ⟨c, hc, rfl⟩, by simp [Option.filter, hc],
          by simp [Option.filter, hc]⟩
      | false =>
        exact ⟨[], c :: opened, rfl, .inl rfl, by simp [Option.filter, hc],
          by simp [Option.filter, hc]⟩
  refine ⟨cs.takeWhile isTabOrSpace, quote, labelled.takeWhile isNameChar,
    labelled.dropWhile isNameChar, ?_, forall_takeWhile, hquote, forall_takeWhile, ?_, ?_⟩
  · rw [List.takeWhile_append_dropWhile, ← hopened, List.takeWhile_append_dropWhile]
  · cases hrest : (labelled.dropWhile isNameChar).head? with
    | none => rfl
    | some c => simpa [hrest] using List.head?_dropWhile_not isNameChar labelled
  · rw [heredocWidth, hhead]
    rw [hhead] at hlabelled
    rw [hlabelled]
    rfl

/-- What is wrong with a heredoc whose width is not known. -/
theorem unended_of_heredocWidth {cs : List Char} {fault : LexFault}
    (h : heredocWidth cs = .error fault) : Unended fault ('<' :: '<' :: '<' :: cs) := by
  obtain ⟨gap, quote, label, rest, rfl, hgap, hquote, hlabel, hstop, hwidth⟩ := exists_opening cs
  rw [hwidth, openedWidth.eq_def] at h
  rcases label with _ | ⟨first, more⟩
  · obtain rfl : LexFault.label = fault := by simpa using h
    exact .label hgap hquote hstop
  have hne : first :: more ≠ [] := List.cons_ne_nil first more
  have hopen {body : List Char} (hbody : heredocBodyWidth (first :: more) body = none) :
      ¬ LabelCloses (first :: more) body := by
    intro hcloses
    simpa [hbody] using isSome_heredocBodyWidth hne hlabel hcloses
  rw [if_neg (by simp)] at h
  rcases hquote with rfl | ⟨q, hq, rfl⟩
  · cases hbody : heredocBodyWidth (first :: more) rest with
    | some n => simp [hbody] at h
    | none =>
      obtain rfl : LexFault.heredoc = fault := by simpa [hbody] using h
      exact .heredoc hgap (.inl rfl) hne hlabel (hopen hbody)
  · by_cases hclose : rest.head? = some q
    · obtain ⟨tail, rfl⟩ := List.head?_eq_some_iff.mp hclose
      cases hbody : heredocBodyWidth (first :: more) tail with
      | some n => simp [hbody] at h
      | none =>
        obtain rfl : LexFault.heredoc = fault := by simpa [hbody] using h
        exact .heredoc hgap (.inr ⟨q, hq, rfl⟩) hne hlabel (hopen hbody)
    · obtain rfl : LexFault.heredoc = fault := by simpa [hclose] using h
      have hunended := Unended.openQuote hgap hq hne hlabel hclose hstop
      exact hunended

/-- What a piece of code that has no end starts with, behind what was read of it. -/
theorem unended_of_codeWidth {c : Char} {cs : List Char} {fault : LexFault} {seen : Nat}
    (h : codeWidth c cs = .error (fault, seen)) :
    ∃ front rest, c :: cs = front ++ rest ∧ front.length = seen ∧ Unended fault rest := by
  cases codeWidth_eq_iff.mp h with
  | openAttributes hwidth =>
    rcases unended_of_attributeWidth Nat.one_pos hwidth with
      ⟨rfl, rfl, n, hn⟩ | ⟨inner, rest, rfl, rfl, hrest⟩
    · exact ⟨[], _, rfl, rfl, .attribute hn⟩
    · exact ⟨'#' :: '[' :: inner, rest, rfl, by simp only [List.length_cons]; omega, hrest⟩
  | openComment hwidth =>
    have hopen := Text.not_infix_of_cut? (Option.map_eq_none_iff.mp hwidth)
    exact ⟨[], _, rfl, rfl, .comment hopen⟩
  | openString hquote hwidth =>
    have hopen := not_quoted_of_stringWidth (ne_backslash_of_isQuote hquote) hwidth
    exact ⟨[], _, rfl, rfl, .string hquote hopen⟩
  | openHeredoc hwidth => exact ⟨[], _, rfl, rfl, unended_of_heredocWidth hwidth⟩

/-- Before a fault the text is divided up to the piece that is not ended. -/
theorem unended_of_divide {mode : Mode} {cs : List Char} {fault : LexFault}
    (h : (divide mode cs).fault = some fault) :
    ∃ rest, cs = (divide mode cs).pieces.flatMap Piece.text ++ rest ∧ Unended fault rest := by
  fun_induction divide mode cs with
  | case1 => simp at h
  | case2 mode c cs found seen hw =>
    obtain rfl : found = fault := by simpa using h
    cases mode with
    | markup => simp [width] at hw
    | code =>
      obtain ⟨front, rest, hcs, rfl, hrest⟩ := unended_of_codeWidth hw
      exact ⟨rest, by simp [hcs], hrest⟩
  | case3 mode c cs kind n hw rest ih =>
    obtain ⟨last, hcs, hlast⟩ := ih h
    refine ⟨last, ?_, hlast⟩
    rw [List.flatMap_cons, List.append_assoc, ← hcs, List.cons_append, List.take_append_drop]

end Lexer

/-- The tokens of a source lie in it, one behind the other. An error has the line on which a
comment, string, heredoc or attribute without an end starts, behind all that was divided. -/
theorem Token.ofSource_positions (source : String) :
    (∀ tokens, Token.ofSource source = .ok tokens →
      (∀ t ∈ tokens, t.LiesIn source) ∧ tokens.Pairwise Token.Before) ∧
    (∀ e, Token.ofSource source = .error e → ∃ front rest, source.toList = front ++ rest ∧
      front = (Lexer.divide .markup source.toList).pieces.flatMap Lexer.Piece.text ∧
      Lexer.Unended e.fault rest ∧ e.line = 1 + Lexer.newlines front) := by
  constructor
  · intro tokens h
    rw [Token.ofSource] at h
    cases hfault : (Lexer.divide .markup source.toList).fault with
    | some fault => simp [hfault] at h
    | none =>
      obtain rfl : Lexer.place [] 0 1 (Lexer.divide .markup source.toList).pieces = tokens := by
        simpa [hfault] using h
      have hsource : source.toList =
          [] ++ (Lexer.divide .markup source.toList).pieces.flatMap Lexer.Piece.text := by
        rw [Lexer.flatMap_text_divide _ _ hfault, List.nil_append]
      exact ⟨Lexer.liesIn_place hsource (Lexer.text_ne_nil hfault) rfl rfl,
        (Lexer.pairwise_place [] 0 1 _).1⟩
  · intro e h
    rw [Token.ofSource] at h
    cases hfault : (Lexer.divide .markup source.toList).fault with
    | none => simp [hfault] at h
    | some fault =>
      obtain ⟨rest, hrest, hunended⟩ := Lexer.unended_of_divide hfault
      obtain rfl : LexError.mk (1 + Lexer.newlines
          ((Lexer.divide .markup source.toList).pieces.flatMap Lexer.Piece.text)) fault = e := by
        simpa [hfault] using h
      exact ⟨_, rest, hrest, rfl, hunended, rfl⟩

/-- A source of two lines with its tokens, and one whose second line starts a comment without an
end. -/
theorem Token.ofSource_positions_two_lines :
    (∃ t u : Token, Token.ofSource "<?php\n$\u00e9 1" = .ok [t, u] ∧ t.LiesIn "<?php\n$\u00e9 1" ∧
      u.LiesIn "<?php\n$\u00e9 1" ∧ t.Before u ∧ u.start = 10) ∧
    ∃ rest, Lexer.Unended .comment rest ∧
      ("<?php\n /* a").toList = ("<?php\n ").toList ++ rest := by
  have hgood : Token.ofSource "<?php\n$\u00e9 1" = .ok
      [{ kind := .variableName, text := "$\u00e9", lead := "<?php\n", line := 2, start := 6, stop := 9 },
       { kind := .number, text := "1", lead := " ", line := 2, start := 10, stop := 11 }] := by
    decide +kernel
  have hbad : Token.ofSource "<?php\n /* a" = .error ⟨2, .comment⟩ := by decide +kernel
  obtain ⟨hlies, hpairs⟩ := (Token.ofSource_positions "<?php\n$\u00e9 1").1 _ hgood
  obtain ⟨front, rest, hsource, hfront, hunended, -⟩ :=
    (Token.ofSource_positions "<?php\n /* a").2 _ hbad
  have hdivided : (Lexer.divide .markup ("<?php\n /* a").toList).pieces.flatMap Lexer.Piece.text =
      ("<?php\n ").toList := by decide +kernel
  rw [hdivided] at hfront
  subst hfront
  refine ⟨⟨_, _, hgood, ?_, ?_, ?_, rfl⟩, rest, hunended, hsource⟩
  · exact hlies _ List.mem_cons_self
  · exact hlies _ (List.mem_cons_of_mem _ List.mem_cons_self)
  · exact (List.pairwise_cons.mp hpairs).1 _ List.mem_cons_self

end ApiDoc
