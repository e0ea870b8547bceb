import Mathlib.Data.List.Basic
import Mathlib.Data.List.TakeDrop
import ApiDoc.Proofs.Lookups
import ApiDoc.Proofs.Places

/-!
# Texts put together from words

Letters and digits by their places in the code, what blanks do at the ends of a text, the first word
of a text that is put together from words, and the items of a list that was written with separators
between them.
-/

namespace ApiDoc.Text

variable {cs front back : List Char}

/-- What is said of all characters of a text is decided by going through the text, not through all
characters there are. -/
scoped instance decidableForallMem {p : Char → Prop} [DecidablePred p] (cs : List Char) :
    Decidable (∀ c ∈ cs, p c) :=
  List.decidableBAll p cs

@[inherit_doc decidableForallMem]
scoped instance decidableForallMemOption {p : Char → Prop} [DecidablePred p] (o : Option Char) :
    Decidable (∀ c ∈ o, p c) :=
  Option.decidableForallMem o

/-! ### Letters and digits -/

theorem isAlpha_iff {c : Char} :
    c.isAlpha = true ↔ ('A' ≤ c ∧ c ≤ 'Z') ∨ ('a' ≤ c ∧ c ≤ 'z') := by
  have hdef : c.isAlpha = (decide ('A' ≤ c ∧ c ≤ 'Z') ||
      (decide ('a' ≤ c) && decide (c ≤ 'z'))) := rfl
  simp only [hdef, Bool.or_eq_true, Bool.and_eq_true, decide_eq_true_eq]

theorem isDigit_iff {c : Char} : c.isDigit = true ↔ '0' ≤ c ∧ c ≤ '9' := by
  have hdef : c.isDigit = (decide ('0' ≤ c) && decide (c ≤ '9')) := rfl
  simp only [hdef, Bool.and_eq_true, decide_eq_true_eq]

theorem isAlphanum_iff {c : Char} : c.isAlphanum = true ↔
    ('A' ≤ c ∧ c ≤ 'Z') ∨ ('a' ≤ c ∧ c ≤ 'z') ∨ ('0' ≤ c ∧ c ≤ '9') := by
  have hdef : c.isAlphanum = (c.isAlpha || c.isDigit) := rfl
  rw [hdef, Bool.or_eq_true, isAlpha_iff, isDigit_iff, or_assoc]

theorem le_iff_toNat {c d : Char} : c ≤ d ↔ c.toNat ≤ d.toNat := UInt32.le_iff_toNat_le

/-! ### Trimmed texts -/

theorem isBlank_space : isBlank ' ' = true := by decide

theorem head?_space (cs : List Char) : ∀ c ∈ (' ' :: cs).head?, isBlank c = true := by
  simp [isBlank_space]

/-- Text without blanks at its ends. -/
structure IsTrimmed (cs : List Char) : Prop where
  front : ∀ c ∈ cs.head?, isBlank c = false
  back : ∀ c ∈ cs.getLast?, isBlank c = false

/-- A word: at least one character, and no blanks. -/
structure IsWord (cs : List Char) : Prop where
  nonempty : cs ≠ []
  blankless : ∀ c ∈ cs, isBlank c = false

theorem IsWord.isTrimmed (h : IsWord cs) : IsTrimmed cs where
  front c hc := h.blankless c (List.mem_of_mem_head? hc)
  back c hc := h.blankless c (List.mem_of_mem_getLast? hc)

theorem isTrimmed_nil : IsTrimmed [] where
  front := by simp
  back := by simp

theorem trimStart_eq_self (h : ∀ c ∈ cs.head?, isBlank c = false) : trimStart cs = cs := by
  cases cs with
  | nil => rfl
  | cons c cs => exact trimStart_cons_of_not_blank (h c rfl)

theorem trimEnd_eq_self (h : ∀ c ∈ cs.getLast?, isBlank c = false) : trimEnd cs = cs := by
  have hreverse : trimStart cs.reverse = cs.reverse :=
    trimStart_eq_self (by rwa [List.head?_reverse])
  rw [trimEnd, ← trimStart, hreverse, List.reverse_reverse]

theorem trimStart_append (h : ∀ c ∈ front, isBlank c = true) (cs : List Char) :
    trimStart (front ++ cs) = trimStart cs :=
  List.dropWhile_append_of_pos h

theorem trimEnd_append (h : ∀ c ∈ back, isBlank c = true) (cs : List Char) :
    trimEnd (cs ++ back) = trimEnd cs := by
  rw [trimEnd, trimEnd, List.reverse_append,
    List.dropWhile_append_of_pos fun c hc => h c (List.mem_reverse.mp hc)]

theorem IsTrimmed.trimStart_eq (h : IsTrimmed cs) : trimStart cs = cs := trimStart_eq_self h.front

theorem IsTrimmed.trimEnd_eq (h : IsTrimmed cs) : trimEnd cs = cs := trimEnd_eq_self h.back

theorem IsTrimmed.trim_eq (h : IsTrimmed cs) : trim cs = cs := by
  rw [trim, h.trimStart_eq, h.trimEnd_eq]

theorem IsTrimmed.trimStart_append_of_ne_nil (h : IsTrimmed cs) (hne : cs ≠ [])
    (rest : List Char) : trimStart (cs ++ rest) = cs ++ rest := by
  refine trimStart_eq_self ?_
  rw [List.head?_append_of_ne_nil _ hne]
  exact h.front

/-- Every text is a trimmed front with blanks behind it. -/
theorem exists_trimEnd_append (cs : List Char) :
    ∃ back, (∀ c ∈ back, isBlank c = true) ∧ cs = trimEnd cs ++ back := by
  refine ⟨(cs.reverse.takeWhile isBlank).reverse, fun c hc => ?_, ?_⟩
  · exact List.mem_takeWhile_imp (List.mem_reverse.mp hc)
  · rw [trimEnd, ← List.reverse_append, List.takeWhile_append_dropWhile, List.reverse_reverse]

/-- Blanks at the front may be taken off before or after those at the end. -/
theorem trim_append (h : ∀ c ∈ back, isBlank c = true) (cs : List Char) :
    trim (cs ++ back) = trim cs := by
  by_cases hcs : ∀ c ∈ cs, isBlank c = true
  · have hall {ds : List Char} (hds : ∀ c ∈ ds, isBlank c = true) : trim ds = [] := by
      rw [trim, trimStart, List.dropWhile_eq_nil_iff.mpr hds]
      rfl
    rw [hall hcs, hall fun c hc => (List.mem_append.mp hc).elim (hcs c) (h c)]
  · have hne : cs.dropWhile isBlank ≠ [] := fun hnil => hcs (List.dropWhile_eq_nil_iff.mp hnil)
    have hstart : trimStart (cs ++ back) = trimStart cs ++ back := by
      rw [trimStart, trimStart, List.dropWhile_append, if_neg (by simpa using hne)]
    rw [trim, trim, hstart, trimEnd_append h]

theorem trim_sublist (cs : List Char) : (trim cs).Sublist cs := by
  rw [trim, trimEnd, ← List.reverse_sublist, List.reverse_reverse]
  refine (List.dropWhile_sublist _).trans ?_
  rw [List.reverse_sublist]
  exact List.dropWhile_sublist _

theorem count_dropWhile {p : Char → Bool} {c : Char} (hc : p c = false) (cs : List Char) :
    (cs.dropWhile p).count c = cs.count c := by
  have hnone : (cs.takeWhile p).count c = 0 := by
    apply List.count_eq_zero.mpr
    intro hmem
    rw [List.mem_takeWhile_imp hmem] at hc
    exact absurd hc (by decide)
  have hsplit : cs.count c = (cs.takeWhile p).count c + (cs.dropWhile p).count c := by
    rw [← List.count_append, List.takeWhile_append_dropWhile]
  omega

/-- Trimming takes off blanks only. -/
theorem count_trim {c : Char} (hc : isBlank c = false) (cs : List Char) :
    (trim cs).count c = cs.count c := by
  rw [trim, trimEnd, List.count_reverse, count_dropWhile hc, List.count_reverse, trimStart,
    count_dropWhile hc]

theorem isTrimmed_between {first last : Char} (hfirst : isBlank first = false)
    (hlast : isBlank last = false) (cs : List Char) : IsTrimmed (first :: (cs ++ [last])) := by
  constructor
  · simpa using hfirst
  · rw [← List.cons_append, List.getLast?_concat]
    simpa using hlast

theorem trim_cons_of_blank {c : Char} (h : isBlank c = true) (cs : List Char) :
    trim (c :: cs) = trim cs := by
  rw [trim, trim, trimStart_cons_of_blank h]

/-- A trimmed text is what is left of it with blanks around it. -/
theorem IsTrimmed.trim_append_append (h : IsTrimmed cs) (hfront : ∀ c ∈ front, isBlank c = true)
    (hback : ∀ c ∈ back, isBlank c = true) : trim (front ++ cs ++ back) = cs := by
  rw [trim_append hback, trim, trimStart_append hfront, ← trim, h.trim_eq]

/-! ### Repeated pieces at the ends -/

theorem dropLeads_replicate {piece rest : List Char} (hne : piece ≠ []) (h : ¬ piece <+: rest)
    (n : Nat) : dropLeads piece ((List.replicate n piece).flatten ++ rest) = rest := by
  induction n with
  | zero => rw [List.replicate_zero, List.flatten_nil, List.nil_append, dropLeads,
      dif_neg fun hand => h (startsWith_iff.mp hand.2)]
  | succ n ih =>
    rw [List.replicate_succ, List.flatten_cons, List.append_assoc, dropLeads,
      dif_pos ⟨hne, startsWith_iff.mpr (List.prefix_append _ _)⟩, List.drop_left, ih]

/-- A piece does not start a text that starts with another character. -/
theorem not_prefix_of_head? {piece rest : List Char} {c : Char} (h : rest.head? ≠ some c) :
    ¬ c :: piece <+: rest := by
  rintro ⟨more, rfl⟩
  exact h rfl

/-- What is dropped at the front is the piece, some number of times. -/
theorem exists_dropLeads (piece cs : List Char) :
    ∃ n, cs = (List.replicate n piece).flatten ++ dropLeads piece cs := by
  fun_induction dropLeads piece cs with
  | case1 cs h ih =>
    obtain ⟨n, hn⟩ := ih
    obtain ⟨rest, rfl⟩ := startsWith_iff.mp h.2
    rw [List.drop_left] at hn ⊢
    exact ⟨n + 1, by rw [List.replicate_succ, List.flatten_cons, List.append_assoc, ← hn]⟩
  | case2 cs h => exact ⟨0, rfl⟩

/-- Nothing of the piece is left at the front. -/
theorem not_prefix_dropLeads {piece : List Char} (hne : piece ≠ []) (cs : List Char) :
    ¬ piece <+: dropLeads piece cs := by
  fun_induction dropLeads piece cs with
  | case1 cs h ih => exact ih
  | case2 cs h => exact fun hstart => h ⟨hne, startsWith_iff.mpr hstart⟩

theorem reverse_flatten_replicate (n : Nat) (piece : List Char) :
    (List.replicate n piece).flatten.reverse = (List.replicate n piece.reverse).flatten := by
  rw [List.reverse_flatten, List.map_replicate, List.reverse_replicate]

/-- Repetitions of a piece are dropped from the end of a text that does not end with it. -/
theorem dropTrails_replicate {piece front : List Char} (hne : piece ≠ []) (h : ¬ piece <:+ front)
    (n : Nat) : dropTrails piece (front ++ (List.replicate n piece).flatten) = front := by
  have hstop : ¬ piece.reverse <+: front.reverse := fun hstart => h (List.reverse_prefix.mp hstart)
  rw [dropTrails, List.reverse_append, reverse_flatten_replicate,
    dropLeads_replicate (by simpa using hne) hstop, List.reverse_reverse]

/-- What is dropped at the end is the piece, some number of times. -/
theorem exists_dropTrails (piece cs : List Char) :
    ∃ n, cs = dropTrails piece cs ++ (List.replicate n piece).flatten := by
  obtain ⟨n, hn⟩ := exists_dropLeads piece.reverse cs.reverse
  refine ⟨n, ?_⟩
  have hwhole := congrArg List.reverse hn
  rwa [List.reverse_reverse, List.reverse_append, reverse_flatten_replicate,
    List.reverse_reverse] at hwhole

/-- Nothing of the piece is left at the end. -/
theorem not_suffix_dropTrails {piece : List Char} (hne : piece ≠ []) (cs : List Char) :
    ¬ piece <:+ dropTrails piece cs := by
  rw [dropTrails, ← List.reverse_prefix, List.reverse_reverse]
  exact not_prefix_dropLeads (by simpa using hne) _

theorem dropLeadChar_eq_self {c : Char} (h : cs.head? ≠ some c) : dropLeadChar c cs = cs := by
  cases cs with
  | nil => rfl
  | cons d cs => simpa [dropLeadChar] using h

theorem head?_dropLeadChar (c : Char) (cs : List Char) : (dropLeadChar c cs).head? ≠ some c := by
  intro h
  have hstop := List.head?_dropWhile_not (· == c) cs
  rw [← dropLeadChar, h] at hstop
  simp at hstop

/-- What is dropped at the front is the character, some number of times. -/
theorem exists_dropLeadChar (c : Char) (cs : List Char) :
    ∃ n, cs = List.replicate n c ++ dropLeadChar c cs := by
  have hrun : cs.takeWhile (· == c) = List.replicate (cs.takeWhile (· == c)).length c :=
    List.eq_replicate_iff.mpr ⟨rfl, fun d hd => by simpa using List.mem_takeWhile_imp hd⟩
  refine ⟨(cs.takeWhile (· == c)).length, ?_⟩
  rw [← hrun, dropLeadChar, List.takeWhile_append_dropWhile]

theorem dropLeadChar_replicate {c : Char} {rest : List Char} (h : rest.head? ≠ some c) (n : Nat) :
    dropLeadChar c (List.replicate n c ++ rest) = rest := by
  rw [dropLeadChar, List.dropWhile_append_of_pos
    (fun d hd => by simpa using List.eq_of_mem_replicate hd)]
  exact dropLeadChar_eq_self h

/-! ### First words -/

/-- Blanks at the end do not belong to the first word. -/
theorem spanWord_append_blanks (h : ∀ c ∈ back, isBlank c = true) (cs : List Char) :
    spanWord (cs ++ back) = ((spanWord cs).1, (spanWord cs).2 ++ back) := by
  cases back with
  | nil => simp
  | cons b back =>
    obtain ⟨htake, hdrop⟩ := InlineTag.span_stop (p := fun c => !isBlank c) (c := b)
      (by simp [h b List.mem_cons_self]) cs back
    simp only [spanWord, List.span_eq_takeWhile_dropWhile, htake, hdrop]

theorem spanWord_append {word rest : List Char} (hword : ∀ c ∈ word, isBlank c = false)
    (hrest : ∀ c ∈ rest.head?, isBlank c = true) : spanWord (word ++ rest) = (word, rest) := by
  have hfront : ∀ c ∈ word, (!isBlank c) = true := fun c hc => by simp [hword c hc]
  have hbehind : ∀ c ∈ rest.head?, (!isBlank c) = false := fun c hc => by simp [hrest c hc]
  obtain ⟨htake, hdrop⟩ := InlineTag.span_eq hfront hbehind
  rw [spanWord, List.span_eq_takeWhile_dropWhile, htake, hdrop]

theorem spanWord_append_space {word : List Char} (h : ∀ c ∈ word, isBlank c = false)
    (rest : List Char) : spanWord (word ++ ' ' :: rest) = (word, ' ' :: rest) :=
  spanWord_append h (head?_space rest)

/-- The first word and what follows it do not depend on blanks at the ends. -/
theorem cutWord_trim (cs : List Char) : cutWord (trim cs) = cutWord cs := by
  obtain ⟨back, hback, hsplit⟩ := exists_trimEnd_append (trimStart cs)
  rw [← trim] at hsplit
  have hstart : trimStart (trim cs) = trim cs := by
    refine trimStart_eq_self fun c hc => ?_
    refine InlineTag.head?_dropWhile cs c ?_
    rw [← trimStart, hsplit, List.head?_append]
    simp [Option.mem_def.mp hc]
  rw [cutWord, cutWord, hstart, hsplit, spanWord_append_blanks hback]
  simp only [trim_append hback]

/-- The first word of a text that starts with a word. -/
theorem cutWord_append {word rest : List Char} (h : IsWord word)
    (hrest : ∀ c ∈ rest.head?, isBlank c = true) : cutWord (word ++ rest) = (word, trim rest) := by
  rw [cutWord, h.isTrimmed.trimStart_append_of_ne_nil h.nonempty, spanWord_append h.blankless hrest]

/-! ### Lists with separators -/

theorem joinWith_cons_cons (sep part other : List Char) (parts : List (List Char)) :
    joinWith sep (part :: other :: parts) = part ++ sep ++ joinWith sep (other :: parts) := rfl

theorem joinWith_cons (sep part : List Char) (parts : List (List Char)) :
    joinWith sep (part :: parts) = part ++ parts.flatMap (sep ++ ·) := by
  induction parts generalizing part with
  | nil => simp [joinWith]
  | cons other parts ih =>
    rw [joinWith_cons_cons, ih, List.flatMap_cons, List.append_assoc, List.append_assoc]

theorem toList_join (sep : String) (parts : List String) :
    (join sep parts).toList = joinWith sep.toList (parts.map String.toList) := by
  rw [join, String.toList_intercalate]
  generalize parts.map String.toList = parts
  induction parts with
  | nil => rfl
  | cons part rest ih =>
    cases rest with
    | nil => simp [joinWith]
    | cons other rest =>
      rw [List.intercalate_cons_cons, ih, joinWith_cons_cons, List.append_assoc]

theorem mem_joinWith {sep : List Char} {parts : List (List Char)} {c : Char}
    (h : c ∈ joinWith sep parts) : c ∈ sep ∨ ∃ part ∈ parts, c ∈ part := by
  cases parts with
  | nil => exact absurd h List.not_mem_nil
  | cons part parts =>
    rw [joinWith_cons] at h
    rcases List.mem_append.mp h with hpart | hrest
    · exact .inr ⟨part, List.mem_cons_self, hpart⟩
    · obtain ⟨other, hother, hmem⟩ := List.mem_flatMap.mp hrest
      exact (List.mem_append.mp hmem).imp_right fun hin =>
        ⟨other, List.mem_cons_of_mem _ hother, hin⟩

theorem mem_joinWith_of_mem {sep part : List Char} {parts : List (List Char)} {c : Char}
    (hc : c ∈ part) (hpart : part ∈ parts) : c ∈ joinWith sep parts := by
  obtain ⟨first, rest, rfl⟩ := List.exists_cons_of_ne_nil (List.ne_nil_of_mem hpart)
  rw [joinWith_cons]
  rcases List.mem_cons.mp hpart with rfl | hrest
  · exact List.mem_append_left _ hc
  · exact List.mem_append_right _ (List.mem_flatMap.mpr ⟨part, hrest, List.mem_append_right _ hc⟩)

theorem mem_of_mem_splitOn {sep c : Char} {cs part : List Char} (hpart : part ∈ splitOn sep cs)
    (hc : c ∈ part) : c ∈ cs := by
  rw [← joinWith_splitOn sep cs]
  exact mem_joinWith_of_mem hc hpart

/-- The text before the last part. -/
theorem exists_joinWith_append (sep : List Char) (parts : List (List Char)) (last : List Char) :
    ∃ front, joinWith sep (parts ++ [last]) = front ++ last := by
  cases parts with
  | nil => exact ⟨[], rfl⟩
  | cons part parts =>
    refine ⟨part ++ parts.flatMap (sep ++ ·) ++ sep, ?_⟩
    rw [List.cons_append, joinWith_cons, List.flatMap_append]
    simp

theorem head?_joinWith (sep : List Char) {part : List Char} (h : part ≠ [])
    (parts : List (List Char)) : (joinWith sep (part :: parts)).head? = part.head? := by
  rw [joinWith_cons]
  cases part with
  | nil => exact absurd rfl h
  | cons c part => rfl

theorem getLast?_joinWith (sep : List Char) {parts : List (List Char)} {last : List Char}
    (hlast : last ∈ parts.getLast?) (h : last ≠ []) :
    (joinWith sep parts).getLast? = last.getLast? := by
  obtain ⟨init, rfl⟩ := List.getLast?_eq_some_iff.mp hlast
  obtain ⟨front, hfront⟩ := exists_joinWith_append sep init last
  rw [hfront, List.getLast?_append_of_ne_nil _ h]

/-- Parts of which the first begins with no blank and the last ends in none. -/
theorem isTrimmed_joinWith (sep : List Char) {parts : List (List Char)}
    (hfront : ∀ part ∈ parts.head?, part ≠ [] ∧ ∀ c ∈ part.head?, isBlank c = false)
    (hback : ∀ part ∈ parts.getLast?, part ≠ [] ∧ ∀ c ∈ part.getLast?, isBlank c = false) :
    IsTrimmed (joinWith sep parts) := by
  cases parts with
  | nil => exact isTrimmed_nil
  | cons part parts =>
    obtain ⟨hne, hstart⟩ := hfront part rfl
    obtain ⟨hne', hstop⟩ := hback _ (List.getLast?_eq_some_getLast (List.cons_ne_nil _ _))
    constructor
    · rwa [head?_joinWith _ hne]
    · rwa [getLast?_joinWith _ (List.getLast?_eq_some_getLast (List.cons_ne_nil _ _)) hne']

theorem isTrimmed_joinWith_of_forall (sep : List Char) {parts : List (List Char)}
    (hne : parts ≠ []) (h : ∀ part ∈ parts, part ≠ [] ∧ IsTrimmed part) :
    joinWith sep parts ≠ [] ∧ IsTrimmed (joinWith sep parts) := by
  refine ⟨?_, isTrimmed_joinWith sep
    (fun part hpart => ⟨(h part (List.mem_of_mem_head? hpart)).1,
      (h part (List.mem_of_mem_head? hpart)).2.front⟩)
    (fun part hpart => ⟨(h part (List.mem_of_getLast? hpart)).1,
      (h part (List.mem_of_getLast? hpart)).2.back⟩)⟩
  obtain ⟨part, parts, rfl⟩ := List.exists_cons_of_ne_nil hne
  rw [joinWith_cons]
  exact List.append_ne_nil_of_left_ne_nil (h part List.mem_cons_self).1 _

/-- Words with a sign that is no blank between them are one word. -/
theorem isWord_joinWith {sep : Char} (hsep : isBlank sep = false) {words : List (List Char)}
    (hne : words ≠ []) (h : ∀ w ∈ words, IsWord w) : IsWord (joinWith [sep] words) where
  nonempty := by
    obtain ⟨word, rest, rfl⟩ := List.exists_cons_of_ne_nil hne
    rw [joinWith_cons]
    exact List.append_ne_nil_of_left_ne_nil (h word List.mem_cons_self).nonempty _
  blankless c hc := by
    rcases mem_joinWith hc with hmem | ⟨word, hword, hmem⟩
    · rw [List.mem_singleton.mp hmem]
      exact hsep
    · exact (h word hword).blankless c hmem

/-- Parts that were put together with a separator, and some padding behind it, are the parts
again, each of them but the first with the padding in front. -/
theorem splitOn_joinWith {sep : Char} {pad part : List Char} {parts : List (List Char)}
    (hpad : sep ∉ pad) (hpart : sep ∉ part) (hparts : ∀ p ∈ parts, sep ∉ p) :
    splitOn sep (joinWith (sep :: pad) (part :: parts)) = part :: parts.map (pad ++ ·) := by
  induction parts generalizing part with
  | nil => simpa [joinWith] using splitOn_of_not_mem hpart
  | cons other parts ih =>
    obtain ⟨hother, hrest⟩ := List.forall_mem_cons.mp hparts
    have hpadded : sep ∉ pad ++ other := by simp [hpad, hother]
    have htail : joinWith (sep :: pad) ((pad ++ other) :: parts) =
        pad ++ joinWith (sep :: pad) (other :: parts) := by
      rw [joinWith_cons, joinWith_cons, List.append_assoc]
    rw [joinWith_cons_cons, List.append_assoc, List.cons_append, splitOn_append,
      splitOn_of_not_mem hpart, ← htail, ih hpadded hrest]
    rfl

/-- Parts without the sign are read off the text. -/
theorem splitOn_joinWith_of_ne_nil {sep : Char} {parts : List (List Char)} (hne : parts ≠ [])
    (h : ∀ part ∈ parts, sep ∉ part) : splitOn sep (joinWith [sep] parts) = parts := by
  obtain ⟨part, rest, rfl⟩ := List.exists_cons_of_ne_nil hne
  obtain ⟨hpart, hrest⟩ := List.forall_mem_cons.mp h
  simpa using splitOn_joinWith List.not_mem_nil hpart hrest

theorem joinWith_inj {sep : Char} {parts others : List (List Char)} (hne : parts ≠ [])
    (hne' : others ≠ []) (h : ∀ part ∈ parts, sep ∉ part) (h' : ∀ part ∈ others, sep ∉ part)
    (heq : joinWith [sep] parts = joinWith [sep] others) : parts = others := by
  rw [← splitOn_joinWith_of_ne_nil hne h, heq, splitOn_joinWith_of_ne_nil hne' h']

/-- The items of a list that was written with separators, and blanks behind them. -/
theorem items_joinWith {sep : Char} {pad : List Char} {parts : List (List Char)}
    (hpad : sep ∉ pad) (hblank : ∀ c ∈ pad, isBlank c = true)
    (hparts : ∀ p ∈ parts, p ≠ [] ∧ IsTrimmed p ∧ sep ∉ p) :
    items sep (String.ofList (joinWith (sep :: pad) parts)) = parts.map String.ofList := by
  cases parts with
  | nil => rfl
  | cons part parts =>
    obtain ⟨⟨-, htrimmed, hpart⟩, hrest⟩ := List.forall_mem_cons.mp hparts
    have hpadded : (parts.map (pad ++ ·)).map trim = parts := by
      rw [List.map_map]
      conv_rhs => rw [← List.map_id parts]
      refine List.map_congr_left fun p hp => ?_
      have hnil : ∀ c ∈ ([] : List Char), isBlank c = true := by simp
      simpa using (hrest p hp).2.1.trim_append_append hblank hnil
    rw [items, String.toList_ofList, splitOn_joinWith hpad hpart fun p hp => (hrest p hp).2.2,
      List.map_cons, htrimmed.trim_eq, hpadded]
    refine List.filterMap_eq_map_iff_forall_eq_some.mpr fun p hp => ?_
    rw [List.isEmpty_eq_false_iff.mpr (hparts p hp).1]
    rfl

/-! ### Words in a row -/

/-- How further text is written behind words: after a space, or not at all if there is none. -/
inductive Trails : List Char → List Char → Prop
  | spaced (text : List Char) : Trails text (' ' :: text)
  | omitted : Trails [] []

namespace Trails

variable {text tail : List Char}

theorem head?_isBlank (h : Trails text tail) : ∀ c ∈ tail.head?, isBlank c = true := by
  cases h with
  | spaced => exact head?_space text
  | omitted => simp

theorem trim_eq (h : Trails text tail) (htext : IsTrimmed text) : trim tail = text := by
  cases h with
  | spaced => rw [trim_cons_of_blank isBlank_space, htext.trim_eq]
  | omitted => rfl

/-- Behind the last word only the further text is left. -/
theorem trim_joinWith_nil (h : Trails text tail) (htext : IsTrimmed text) (sep : List Char) :
    trim (joinWith sep [] ++ tail) = text :=
  h.trim_eq htext

/-- Trimming what is written behind a text takes off at most the space. -/
theorem exists_trim_append {front : List Char} (h : Trails text tail) (htext : IsTrimmed text)
    (hfront : IsTrimmed front) (hne : front ≠ []) :
    ∃ rest, Trails text rest ∧ trim (front ++ tail) = front ++ rest := by
  cases h with
  | omitted => exact ⟨[], .omitted, by rw [List.append_nil, hfront.trim_eq]⟩
  | spaced =>
    by_cases hnil : text = []
    · subst hnil
      have hblank : ∀ c ∈ [' '], isBlank c = true := by decide
      exact ⟨[], .omitted, by rw [trim_append hblank, hfront.trim_eq, List.append_nil]⟩
    · have hwhole : IsTrimmed (front ++ ' ' :: text) := by
        constructor
        · rw [List.head?_append_of_ne_nil _ hne]
          exact hfront.front
        · rw [← List.singleton_append, ← List.append_assoc, List.getLast?_append_of_ne_nil _ hnil]
          exact htext.back
      exact ⟨_, .spaced text, hwhole.trim_eq⟩

end Trails

/-- The first of some words with spaces between them, and what is behind it. -/
theorem cutWord_joinWith {word tail : List Char} (h : IsWord word)
    (htail : ∀ c ∈ tail.head?, isBlank c = true) (words : List (List Char)) :
    cutWord (joinWith [' '] (word :: words) ++ tail) =
      (word, trim (joinWith [' '] words ++ tail)) := by
  cases words with
  | nil => exact cutWord_append h htail
  | cons other words =>
    rw [joinWith_cons_cons, List.append_assoc, List.append_assoc, List.singleton_append,
      cutWord_append h (head?_space _), trim_cons_of_blank isBlank_space]

end ApiDoc.Text
