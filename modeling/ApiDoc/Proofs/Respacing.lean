import ApiDoc.Proofs.Lookups
import ApiDoc.Proofs.Positions

/-!
# Tokens that stand by themselves

The text of a token is divided like the token in any place where a blank follows it: nothing that
was in front of it or behind it in the source matters. `Lexer.Lexes` says so of one text, with one
lemma for each reader of a width, and the division of spaced texts is that of each text in turn.
So the tokens of a source, written with blanks between them, are divided into themselves.
-/

namespace ApiDoc

/-- The text at hand, or nothing, in front of which a token ends in any case. -/
def Lexer.Spaced (rest : List Char) : Prop := ∀ c ∈ rest.head?, c = ' '

namespace Lexer

/-! ### What follows a blank is not read -/

theorem isTabOrSpace_false_of_isNameChar {c : Char} (h : isNameChar c = true) :
    isTabOrSpace c = false := by
  cases hblank : isTabOrSpace c with
  | false => rfl
  | true => simp [isNameChar_false_of_isTabOrSpace hblank] at h

theorem eq_of_isQuote {c : Char} (h : isQuote c = true) : c = '\x27' ∨ c = '\x22' := by
  simpa [isQuote] using h

theorem isTabOrSpace_false_of_isQuote {c : Char} (h : isQuote c = true) :
    isTabOrSpace c = false := by
  rcases eq_of_isQuote h with rfl | rfl <;> decide

theorem isQuote_false_of_isNameChar {c : Char} (h : isNameChar c = true) : isQuote c = false := by
  cases hquote : isQuote c with
  | false => rfl
  | true => rcases eq_of_isQuote hquote with rfl | rfl <;> simp [isNameChar, isNameStart] at h

theorem Spaced.any_eq_false {rest : List Char} (h : Spaced rest) {p : Char → Bool}
    (hp : p ' ' = false) : rest.head?.any p = false := by
  cases hrest : rest.head? with
  | none => rfl
  | some c => rw [h c hrest, Option.any_some, hp]

/-- A sign without blanks that stands in front of a blank was there with what was behind it. -/
theorem startsWith_of_take {piece cs rest : List Char} {n : Nat} (hblank : ' ' ∉ piece)
    (hrest : Spaced rest) (h : Text.startsWith piece (cs.take n ++ rest) = true) :
    Text.startsWith piece cs = true := by
  rw [Text.startsWith_iff] at h ⊢
  obtain ⟨back, hback⟩ := h
  rcases List.append_eq_append_iff.mp hback with ⟨mid, htake, -⟩ | ⟨mid, hpiece, hmid⟩
  · exact (htake ▸ List.prefix_append piece mid).trans (List.take_prefix n cs)
  · cases mid with
    | nil =>
      rw [List.append_nil] at hpiece
      exact hpiece ▸ List.take_prefix n cs
    | cons c mid =>
      have hc : c = ' ' := hrest c (by rw [hmid]; rfl)
      simp [hpiece, hc] at hblank

theorem not_startsWith_take {c d : Char} {piece cs rest : List Char} {n : Nat}
    (hblank : ' ' ∉ piece) (hrest : Spaced rest)
    (h : ¬ (c == d && Text.startsWith piece cs) = true) :
    ¬ (c == d && Text.startsWith piece (cs.take n ++ rest)) = true := by
  rw [Bool.and_eq_true_iff] at h ⊢
  exact fun hnew => h ⟨hnew.1, startsWith_of_take hblank hrest hnew.2⟩

theorem any_head?_of_take {p : Char → Bool} (hp : p ' ' = false) {cs rest : List Char} {n : Nat}
    (hrest : Spaced rest) (h : (cs.take n ++ rest).head?.any p = true) :
    cs.head?.any p = true := by
  cases htake : cs.take n with
  | nil => simp [htake, hrest.any_eq_false hp] at h
  | cons c kept =>
    obtain ⟨back, hback⟩ := List.take_prefix n cs
    rw [← hback, htake, List.cons_append]
    rwa [htake, List.cons_append] at h

/-- A sign that lies within what is kept is still there. -/
theorem startsWith_take {piece cs : List Char} {n : Nat} (hn : piece.length ≤ n)
    (h : Text.startsWith piece cs = true) (rest : List Char) :
    Text.startsWith piece (cs.take n ++ rest) = true := by
  rw [Text.startsWith_iff] at h ⊢
  obtain ⟨back, rfl⟩ := h
  rw [List.take_append, List.take_of_length_le hn, List.append_assoc]
  exact List.prefix_append _ _

/-- A run of characters that pass a test ends in front of a blank that fails it. -/
theorem takeWhile_take {p : Char → Bool} (hp : p ' ' = false) (cs : List Char) {rest : List Char}
    (hrest : Spaced rest) :
    (cs.take (cs.takeWhile p).length ++ rest).takeWhile p = cs.takeWhile p := by
  have hstop : ∀ c ∈ rest.head?, p c = false := fun c hc => hrest c hc ▸ hp
  rw [← List.prefix_iff_eq_take.mp (List.takeWhile_prefix p)]
  exact (InlineTag.span_eq forall_takeWhile hstop).1

/-- The first place of a piece does not depend on what is behind it. -/
theorem cut?_replace {piece cs front back : List Char}
    (h : Text.cut? piece cs = some (front, back)) (rest : List Char) :
    Text.cut? piece (front ++ piece ++ rest) = some (front, rest) := by
  induction cs generalizing front with
  | nil =>
    rw [Text.cut?, Option.ite_none_right_eq_some] at h
    obtain ⟨hempty, hpair⟩ := h
    obtain ⟨rfl, rfl⟩ : [] = front ∧ [] = back := by simpa using hpair
    obtain rfl := List.isEmpty_iff.mp hempty
    cases rest <;> simp [Text.cut?, Text.after?, Text.startsWith]
  | cons c cs ih =>
    have hwhole := Text.append_of_cut? h
    rw [Text.cut?] at h
    split at h
    · next after hafter =>
      obtain ⟨rfl, rfl⟩ : [] = front ∧ after = back := by simpa using h
      cases hnew : [] ++ piece ++ rest with
      | nil =>
        obtain ⟨rfl, rfl⟩ : piece = [] ∧ rest = [] := by simpa using hnew
        rfl
      | cons d ds =>
        have hdrop : Text.after? piece (d :: ds) = some rest := by
          rw [← hnew, List.nil_append, Text.after?, if_pos (Text.startsWith_iff.mpr
            (List.prefix_append _ _)), List.drop_left]
        rw [Text.cut?, hdrop]
    · next hafter =>
      obtain ⟨⟨inner, after⟩, hinner, hpair⟩ := Option.map_eq_some_iff.mp h
      obtain ⟨rfl, rfl⟩ : c :: inner = front ∧ after = back := by simpa using hpair
      have hnone : Text.after? piece (c :: (inner ++ piece ++ rest)) = none := by
        rw [Text.after?, ite_eq_right_iff] at hafter ⊢
        intro hstart
        obtain hprefix := Text.startsWith_iff.mp hstart
        have hshort : piece <+: c :: (inner ++ piece) := by
          refine List.prefix_of_prefix_length_le hprefix (List.prefix_append _ rest) ?_
          simp only [List.length_cons, List.length_append]
          omega
        refine absurd (hafter (Text.startsWith_iff.mpr ?_)) (by simp)
        rw [← hwhole]
        exact hshort.trans (List.prefix_append _ _)
      rw [List.cons_append, List.cons_append, Text.cut?, hnone, ih hinner]
      rfl

theorem le_of_blockCommentWidth {cs : List Char} {n : Nat} (h : blockCommentWidth cs = some n) :
    n ≤ cs.length := by
  obtain ⟨⟨front, back⟩, hcut, rfl⟩ := Option.map_eq_some_iff.mp h
  rw [← Text.append_of_cut? hcut, List.append_assoc, List.length_append, List.length_append]
  exact Nat.add_le_add_left (Nat.le_add_right 2 back.length) front.length

theorem blockCommentWidth_take {cs : List Char} {n : Nat} (h : blockCommentWidth cs = some n)
    (rest : List Char) : blockCommentWidth (cs.take n ++ rest) = some n := by
  obtain ⟨⟨front, back⟩, hcut, rfl⟩ := Option.map_eq_some_iff.mp h
  have htake : cs.take (front.length + 2) = front ++ ['*', '/'] := by
    rw [← Text.append_of_cut? hcut]
    simp [List.take_append, List.take_of_length_le]
  rw [blockCommentWidth, htake, cut?_replace hcut]
  rfl

theorem le_of_stringWidth {quote : Char} (hquote : quote ≠ '\\') {cs : List Char} {n : Nat}
    (h : stringWidth quote cs = some n) : n ≤ cs.length := by
  obtain ⟨inner, back, rfl, -, rfl⟩ := (stringWidth_eq_some_iff hquote).mp h
  rw [List.length_append, List.length_cons]
  omega

theorem stringWidth_take {quote : Char} (hquote : quote ≠ '\\') {cs : List Char} {n : Nat}
    (h : stringWidth quote cs = some n) (rest : List Char) :
    stringWidth quote (cs.take n ++ rest) = some n := by
  obtain ⟨inner, back, rfl, hinner, rfl⟩ := (stringWidth_eq_some_iff hquote).mp h
  refine (stringWidth_eq_some_iff hquote).mpr ⟨inner, rest, ?_, hinner, rfl⟩
  simp [List.take_append, List.take_of_length_le]

/-! ### Heredocs -/

/-- Whether a line that starts here closes the heredoc, as `heredocBodyWidth` tests it. -/
def closesHere (label cs : List Char) : Bool :=
  Text.startsWith label (cs.dropWhile isTabOrSpace) &&
    !((cs.dropWhile isTabOrSpace).drop label.length).head?.any isNameChar

theorem heredocBodyWidth_cons (label cs : List Char) (c : Char) :
    heredocBodyWidth label (c :: cs) =
      if c == '\n' && closesHere label cs then
        some (1 + (cs.takeWhile isTabOrSpace).length + label.length)
      else (heredocBodyWidth label cs).map (· + 1) := by
  rw [heredocBodyWidth, closesHere, Bool.and_assoc]

theorem le_of_heredocBodyWidth {label cs : List Char} {n : Nat}
    (h : heredocBodyWidth label cs = some n) : n ≤ cs.length := by
  induction cs generalizing n with
  | nil => simp [heredocBodyWidth] at h
  | cons c cs ih =>
    rw [heredocBodyWidth_cons] at h
    split at h
    · next hclose =>
      obtain ⟨hstart, -⟩ := Bool.and_eq_true_iff.mp (Bool.and_eq_true_iff.mp hclose).2
      have hlabel := (Text.startsWith_iff.mp hstart).length_le
      have hline := congrArg List.length
        (List.takeWhile_append_dropWhile (p := isTabOrSpace) (l := cs))
      rw [List.length_append] at hline
      obtain rfl := Option.some.inj h
      rw [List.length_cons]
      omega
    · obtain ⟨m, hm, rfl⟩ := Option.map_eq_some_iff.mp h
      exact Nat.succ_le_succ (ih hm)

/-- Whether a line closes the heredoc depends on that line alone. -/
theorem closesHere_line {label : List Char} (hlabel : '\n' ∉ label) (line more : List Char) :
    closesHere label (line ++ '\n' :: more) = closesHere label (line ++ ['\n']) := by
  have hdrop (more : List Char) := (InlineTag.span_stop (p := isTabOrSpace)
    (show isTabOrSpace '\n' = false by decide) line more).2
  rw [closesHere, closesHere, hdrop, hdrop]
  generalize line.dropWhile isTabOrSpace = body
  by_cases hstart : label <+: body
  · obtain ⟨tail, rfl⟩ := hstart
    have hleft (more : List Char) : Text.startsWith label (label ++ tail ++ '\n' :: more) = true :=
      Text.startsWith_iff.mpr (by rw [List.append_assoc]; exact List.prefix_append _ _)
    rw [hleft, hleft, List.append_assoc, List.drop_left, List.append_assoc, List.drop_left]
    cases tail <;> rfl
  · have hleft (more : List Char) : Text.startsWith label (body ++ '\n' :: more) = false := by
      rw [Bool.eq_false_iff, ne_eq, Text.startsWith_iff]
      rintro ⟨back, hback⟩
      rcases List.append_eq_append_iff.mp hback with ⟨mid, hbody, -⟩ | ⟨mid, hpiece, hmid⟩
      · exact hstart ⟨mid, hbody.symm⟩
      · cases mid with
        | nil => exact hstart ⟨[], by simpa using hpiece⟩
        | cons c mid =>
          obtain rfl : '\n' = c := (List.cons.inj hmid).1
          simp [hpiece] at hlabel
    rw [hleft, hleft, Bool.false_and, Bool.false_and]

/-- The body of a heredoc goes up to a line with the label, whatever follows it. -/
theorem heredocBodyWidth_replace {label : List Char} (hne : label ≠ [])
    (hname : ∀ c ∈ label, isNameChar c = true) {cs : List Char} {n : Nat}
    (h : heredocBodyWidth label cs = some n) :
    ∃ line back, cs = line ++ '\n' :: back ∧
      ∀ rest, Spaced rest → heredocBodyWidth label (cs.take n ++ rest) = some n ∧
        ∃ tail, cs.take n ++ rest = line ++ '\n' :: tail := by
  have hlabel : '\n' ∉ label := fun hmem => absurd (hname _ hmem) (by decide)
  induction cs generalizing n with
  | nil => simp [heredocBodyWidth] at h
  | cons c cs ih =>
    rw [heredocBodyWidth_cons] at h
    by_cases hclose : (c == '\n' && closesHere label cs) = true
    · rw [if_pos hclose] at h
      obtain ⟨hc, hhere⟩ := Bool.and_eq_true_iff.mp hclose
      obtain rfl := beq_iff_eq.mp hc
      obtain ⟨back, hback⟩ := Text.startsWith_iff.mp (Bool.and_eq_true_iff.mp hhere).1
      obtain ⟨indent, hindent, hblanks, rfl⟩ : ∃ indent, cs.takeWhile isTabOrSpace = indent ∧
          (∀ c ∈ indent, isTabOrSpace c = true) ∧ cs = indent ++ (label ++ back) := by
        refine ⟨_, rfl, forall_takeWhile, ?_⟩
        rw [hback, List.takeWhile_append_dropWhile]
      rw [hindent] at h
      obtain rfl : indent.length + label.length + 1 = n := by
        rw [← Option.some.inj h]
        omega
      refine ⟨[], _, rfl, fun rest hrest => ?_⟩
      obtain ⟨htake, hdrop⟩ := span_indent hblanks hne hname rest
      have hkept : (indent ++ (label ++ back)).take (indent.length + label.length) =
          indent ++ label := by
        rw [← List.append_assoc, ← List.length_append, List.take_left]
      have hnew : closesHere label (indent ++ (label ++ rest)) = true := by
        rw [closesHere, hdrop, List.drop_left, hrest.any_eq_false (by decide),
          Text.startsWith_iff.mpr (List.prefix_append _ _)]
        rfl
      rw [List.take_succ_cons, hkept, List.cons_append, List.append_assoc, heredocBodyWidth_cons,
        hnew, htake]
      refine ⟨?_, _, rfl⟩
      rw [hc, Bool.true_and, if_pos rfl, h]
    · rw [if_neg hclose] at h
      obtain ⟨m, hm, rfl⟩ := Option.map_eq_some_iff.mp h
      obtain ⟨line, back, hcs, hnew⟩ := ih hm
      refine ⟨c :: line, back, by rw [hcs, List.cons_append], fun rest hrest => ?_⟩
      obtain ⟨hwidth, tail, htail⟩ := hnew rest hrest
      -- The line that starts here is the same as before.
      have hsame : closesHere label (cs.take m ++ rest) = closesHere label cs := by
        rw [htail, hcs, closesHere_line hlabel, closesHere_line hlabel line back]
      rw [List.take_succ_cons, List.cons_append, heredocBodyWidth_cons, hsame, if_neg hclose, hwidth]
      exact ⟨rfl, tail, by rw [htail, List.cons_append]⟩

/-- The opening of a heredoc is found again in front of any body. -/
theorem heredocWidth_opening {gap quote label rest : List Char}
    (hgap : ∀ c ∈ gap, isTabOrSpace c = true) (hquote : IsLabelQuote quote) (hne : label ≠ [])
    (hname : ∀ c ∈ label, isNameChar c = true) (hstop : rest.head?.any isNameChar = false) :
    heredocWidth (gap ++ (quote ++ (label ++ rest))) =
      openedWidth gap.length quote.head? label rest := by
  obtain ⟨first, more, rfl⟩ := List.exists_cons_of_ne_nil hne
  have hfirst : isNameChar first = true := hname first List.mem_cons_self
  have hstart : ∀ c ∈ (quote ++ (first :: more ++ rest)).head?, isTabOrSpace c = false := by
    rintro c hc
    rcases hquote with rfl | ⟨q, hq, rfl⟩
    · obtain rfl : first = c := by simpa using hc
      exact isTabOrSpace_false_of_isNameChar hfirst
    · obtain rfl : q = c := by simpa using hc
      exact isTabOrSpace_false_of_isQuote hq
  have hend : ∀ c ∈ rest.head?, isNameChar c = false := by
    intro c hc
    simpa [Option.mem_def.mp hc] using hstop
  obtain ⟨htake, hdrop⟩ := InlineTag.span_eq hgap hstart
  obtain ⟨hlabel, hrest⟩ := InlineTag.span_eq hname hend
  have hhead : (quote ++ (first :: more ++ rest)).head?.filter isQuote = quote.head? := by
    rcases hquote with rfl | ⟨q, hq, rfl⟩
    · simp [Option.filter, isQuote_false_of_isNameChar hfirst]
    · simp [Option.filter, hq]
  have hlabelled : (if quote.head?.isSome then (quote ++ (first :: more ++ rest)).drop 1
      else quote ++ (first :: more ++ rest)) = first :: more ++ rest := by
    rcases hquote with rfl | ⟨q, hq, rfl⟩ <;> rfl
  rw [heredocWidth, htake, hdrop, hhead, hlabelled, hlabel, hrest]
  rfl

theorem le_of_heredocWidth {cs : List Char} {n : Nat} (h : heredocWidth cs = .ok n) :
    n ≤ cs.length := by
  obtain ⟨gap, quote, label, body, rfl, -, hquote, -, -, hwidth⟩ := exists_opening cs
  rw [hwidth, openedWidth.eq_def] at h
  rw [List.length_append, List.length_append, List.length_append]
  split at h
  · simp at h
  rcases hquote with rfl | ⟨q, -, rfl⟩
  · cases hbody : heredocBodyWidth label body with
    | none => simp [hbody] at h
    | some m =>
      obtain rfl : gap.length + label.length + m = n := by simpa [hbody] using h
      have hle := le_of_heredocBodyWidth hbody
      omega
  · by_cases hclose : body.head? = some q
    · obtain ⟨inner, rfl⟩ := List.head?_eq_some_iff.mp hclose
      cases hbody : heredocBodyWidth label inner with
      | none => simp [hbody] at h
      | some m =>
        obtain rfl : gap.length + label.length + 2 + m = n := by simpa [hbody] using h
        have hle := le_of_heredocBodyWidth hbody
        simp only [List.length_cons, List.length_nil]
        omega
    · simp [hclose] at h

theorem heredocWidth_take {cs : List Char} {n : Nat} (h : heredocWidth cs = .ok n)
    {rest : List Char} (hrest : Spaced rest) : heredocWidth (cs.take n ++ rest) = .ok n := by
  obtain ⟨gap, quote, label, body, rfl, hgap, hquote, hname, hstop, hwidth⟩ := exists_opening cs
  rw [hwidth, openedWidth.eq_def] at h
  have hne : label ≠ [] := by
    rintro rfl
    simp at h
  rw [if_neg (by simpa using hne)] at h
  rcases hquote with rfl | ⟨q, hq, rfl⟩
  · cases hbody : heredocBodyWidth label body with
    | none => simp [hbody] at h
    | some m =>
      obtain rfl : gap.length + label.length + m = n := by simpa [hbody] using h
      obtain ⟨line, back, rfl, hnew⟩ := heredocBodyWidth_replace hne hname hbody
      obtain ⟨hfound, tail, htail⟩ := hnew rest hrest
      have hkept : (gap ++ ([] ++ (label ++ (line ++ '\n' :: back)))).take
          (gap.length + label.length + m) ++ rest =
            gap ++ ([] ++ (label ++ (line ++ '\n' :: tail))) := by
        rw [← htail, List.nil_append, List.nil_append, ← List.append_assoc, ← List.length_append,
          List.take_length_add_append, List.append_assoc, List.append_assoc]
      have hagain : (line ++ '\n' :: tail).head?.any isNameChar = false := by
        cases line with
        | nil => rfl
        | cons c line => exact hstop
      rw [htail] at hfound
      rw [hkept, heredocWidth_opening hgap (.inl rfl) hne hname hagain, openedWidth.eq_def,
        if_neg (by simpa using hne)]
      simp only [List.head?_nil, hfound]
  · by_cases hclose : body.head? = some q
    · obtain ⟨inner, rfl⟩ := List.head?_eq_some_iff.mp hclose
      cases hbody : heredocBodyWidth label inner with
      | none => simp [hbody] at h
      | some m =>
        obtain rfl : gap.length + label.length + 2 + m = n := by simpa [hbody] using h
        obtain ⟨line, back, -, hnew⟩ := heredocBodyWidth_replace hne hname hbody
        obtain ⟨hfound, -⟩ := hnew rest hrest
        have hkept : (gap ++ ([q] ++ (label ++ q :: inner))).take
            (gap.length + label.length + 2 + m) ++ rest =
              gap ++ ([q] ++ (label ++ q :: (inner.take m ++ rest))) := by
          have hfront : gap ++ ([q] ++ (label ++ q :: inner)) =
              (gap ++ q :: label ++ [q]) ++ inner := by simp
          have hlength : gap.length + label.length + 2 = (gap ++ q :: label ++ [q]).length := by
            simp only [List.length_append, List.length_cons, List.length_nil]
            omega
          rw [hfront, hlength, List.take_length_add_append]
          simp
        have hagain : (q :: (inner.take m ++ rest)).head?.any isNameChar = false := hstop
        rw [hkept, heredocWidth_opening hgap (.inr ⟨q, hq, rfl⟩) hne hname hagain,
          openedWidth.eq_def, if_neg (by simpa using hne)]
        simp [hfound]
    · simp [hclose] at h

/-! ### Every reader of a width -/

theorem punctWidth_le (c : Char) (cs : List Char) : punctWidth c cs ≤ cs.length := by
  rw [punctWidth]
  split
  · next row hrow =>
    have htest := List.find?_some hrow
    exact (Text.startsWith_iff.mp (Bool.and_eq_true_iff.mp htest).2).length_le
  · exact Nat.zero_le _

theorem not_blank_of_mem_compounds : ∀ row ∈ compounds, ' ' ∉ row.2 := by decide

/-- The longest punctuation at hand is there again, and no longer one. -/
theorem punctWidth_take {c : Char} {cs rest : List Char} (hrest : Spaced rest) :
    punctWidth c (cs.take (punctWidth c cs) ++ rest) = punctWidth c cs := by
  have hlost (n : Nat) : ∀ row ∈ compounds, ¬ (row.1 == c && Text.startsWith row.2 cs) = true →
      ¬ (row.1 == c && Text.startsWith row.2 (cs.take n ++ rest)) = true := by
    intro row hrow
    exact not_startsWith_take (not_blank_of_mem_compounds row hrow) hrest
  cases hfind : compounds.find? (fun row => row.1 == c && Text.startsWith row.2 cs) with
  | none =>
    have hwidth : punctWidth c cs = 0 := by rw [punctWidth, hfind]
    have hnone : compounds.find? (fun row => row.1 == c &&
        Text.startsWith row.2 (cs.take 0 ++ rest)) = none := by
      rw [List.find?_eq_none] at hfind ⊢
      exact fun row hrow => hlost 0 row hrow (hfind row hrow)
    rw [hwidth, punctWidth, hnone]
  | some row =>
    have hwidth : punctWidth c cs = row.2.length := by rw [punctWidth, hfind]
    obtain ⟨htest, before, behind, hrows, hbefore⟩ := List.find?_eq_some_iff_append.mp hfind
    obtain ⟨hc, hstart⟩ := Bool.and_eq_true_iff.mp htest
    have hsome : compounds.find? (fun other => other.1 == c &&
        Text.startsWith other.2 (cs.take row.2.length ++ rest)) = some row := by
      refine List.find?_eq_some_iff_append.mpr ⟨?_, before, behind, hrows, fun earlier hearlier => ?_⟩
      · rw [hc, startsWith_take (Nat.le_refl _) hstart, Bool.true_and]
      · have hmem : earlier ∈ compounds := hrows ▸ List.mem_append_left _ hearlier
        rw [Bool.not_eq_true', ← Bool.not_eq_true]
        refine hlost row.2.length earlier hmem ?_
        rw [Bool.not_eq_true, ← Bool.not_eq_true']
        exact hbefore earlier hearlier
    rw [hwidth, punctWidth, hsome]

/-- A sign that is not in front of a text is not in front of what is kept of it either. -/
theorem not_prefix_take {piece cs rest : List Char} {n : Nat} (hblank : ' ' ∉ piece)
    (hrest : Spaced rest) (h : ¬ piece <+: cs) : ¬ piece <+: cs.take n ++ rest := by
  rw [← Text.startsWith_iff] at h ⊢
  exact fun hnew => h (startsWith_of_take hblank hrest hnew)

/-- Punctuation is no more than that in front of a blank. -/
theorem Punctuates.take {c : Char} {cs rest : List Char} {n : Nat} (h : Punctuates c cs)
    (hrest : Spaced rest) : Punctuates c (cs.take n ++ rest) := by
  cases h with
  | question h => exact .question (not_prefix_take (by decide) hrest h)
  | slash hline h =>
    exact .slash (not_prefix_take (by decide) hrest hline) (not_prefix_take (by decide) hrest h)
  | less h => exact .less (not_prefix_take (by decide) hrest h)
  | dollar h =>
    refine .dollar (Bool.eq_false_iff.mpr fun hnew => ?_)
    simp [any_head?_of_take (by decide) hrest hnew] at h
  | other hsign hname hdigit => exact .other hsign hname hdigit

/-- A comment that documents does so wherever it stands. -/
theorem documents_take {cs rest : List Char} {n : Nat} (hn : 2 ≤ n) (hrest : Spaced rest)
    (h : documents cs = true) : documents (cs.take n ++ rest) = true := by
  rw [documents, Bool.and_eq_true_iff, Bool.not_eq_true'] at h ⊢
  refine ⟨startsWith_take hn h.1 rest, ?_⟩
  rw [Bool.eq_false_iff] at h ⊢
  exact fun hthree => h.2 (startsWith_of_take (by decide) hrest hthree)

theorem two_le_of_blockCommentWidth {cs : List Char} {n : Nat} (h : blockCommentWidth cs = some n) :
    2 ≤ n := by
  obtain ⟨⟨front, behind⟩, -, rfl⟩ := Option.map_eq_some_iff.mp h
  exact Nat.le_add_left 2 front.length

/-- The name of a variable keeps its first character. -/
theorem any_head?_takeWhile {cs : List Char} (h : cs.head?.any isNameStart = true)
    (rest : List Char) :
    (cs.take (cs.takeWhile isNameChar).length ++ rest).head?.any isNameStart = true := by
  cases cs with
  | nil => simp at h
  | cons d more =>
    have hfirst : isNameStart d = true := h
    rw [List.takeWhile_cons_of_pos (by rw [isNameChar, hfirst, Bool.true_or])]
    exact hfirst

/-- A token lies within its text, and is the same token in front of any blank. -/
theorem codeWidth_take {c : Char} {cs : List Char} {kind : TokenKind} {n : Nat}
    (h : codeWidth c cs = .ok (some kind, n)) {rest : List Char} (hrest : Spaced rest) :
    n ≤ cs.length ∧ codeWidth c (cs.take n ++ rest) = .ok (some kind, n) := by
  rw [codeWidth_eq_iff] at h ⊢
  cases h with
  | closeTag => exact ⟨Nat.succ_le_succ (Nat.zero_le _), .closeTag⟩
  | docComment hwidth hdoc =>
    have hdoc' := documents_take (Nat.le_succ_of_le (two_le_of_blockCommentWidth hwidth)) hrest hdoc
    exact ⟨Nat.succ_le_succ (le_of_blockCommentWidth hwidth),
      .docComment (blockCommentWidth_take hwidth rest) hdoc'⟩
  | string hquote hwidth =>
    have hne := ne_backslash_of_isQuote hquote
    exact ⟨le_of_stringWidth hne hwidth, .string hquote (stringWidth_take hne hwidth rest)⟩
  | heredoc hwidth =>
    exact ⟨Nat.add_le_add_right (le_of_heredocWidth hwidth) 2,
      .heredoc (heredocWidth_take hwidth hrest)⟩
  | variableName hstart =>
    refine ⟨(List.takeWhile_prefix _).length_le, ?_⟩
    have hvariable := Cut.variableName (any_head?_takeWhile hstart rest)
    rwa [takeWhile_take (by decide) cs hrest] at hvariable
  | name hstart =>
    refine ⟨(List.takeWhile_prefix _).length_le, ?_⟩
    have hname : Cut c (cs.take (cs.takeWhile isQualifiedChar).length ++ rest) _ := .name hstart
    rwa [takeWhile_take (by decide) cs hrest] at hname
  | number hdigit =>
    refine ⟨(List.takeWhile_prefix _).length_le, ?_⟩
    have hnumber : Cut c (cs.take (cs.takeWhile isNumberChar).length ++ rest) _ := .number hdigit
    rwa [takeWhile_take (by decide) cs hrest] at hnumber
  | punct h =>
    refine ⟨punctWidth_le c cs, ?_⟩
    have hpunct := Cut.punct (h.take (n := punctWidth c cs) hrest)
    rwa [punctWidth_take hrest] at hpunct

/-! ### Spaced texts -/

/-- The text is divided like a token of the kind wherever a blank follows it. -/
def Lexes (kind : TokenKind) (text : List Char) : Prop :=
  ∃ c cs, text = c :: cs ∧
    ∀ rest, Spaced rest → codeWidth c (cs ++ rest) = .ok (some kind, cs.length)

/-- The kinds and texts of the tokens among pieces. -/
def lexemes (pieces : List Piece) : List (TokenKind × List Char) :=
  pieces.filterMap fun piece => piece.kind.map fun kind => (kind, piece.text)

/-- Each token of a text stands by itself. -/
theorem lexes_of_divide (mode : Mode) (cs : List Char) :
    ∀ l ∈ lexemes (divide mode cs).pieces, Lexes l.1 l.2 := by
  fun_induction divide mode cs with
  | case1 => simp [lexemes]
  | case2 mode c cs fault seen hw => simp [lexemes]
  | case3 mode c cs kind n hw rest ih =>
    intro l hl
    cases kind with
    | none => exact ih l hl
    | some kind =>
      rcases List.mem_cons.mp hl with rfl | hl
      · cases mode with
        | markup => simp [width] at hw
        | code =>
          refine ⟨c, cs.take n, rfl, fun more hmore => ?_⟩
          obtain ⟨hle, hnew⟩ := codeWidth_take hw hmore
          rw [hnew, List.length_take, Nat.min_eq_left hle]
      · exact ih l hl

/-- A token as it is written among others: markup that a closing tag starts is ended at once. -/
def spelled (l : TokenKind × List Char) : List Char :=
  if l.1 = .closeTag then l.2 ++ (" <?php ").toList else l.2

/-- Tokens with a blank in front of each. -/
def spaced (ls : List (TokenKind × List Char)) : List Char := ls.flatMap fun l => ' ' :: spelled l

theorem spaced_spaced (ls : List (TokenKind × List Char)) : Spaced (spaced ls) := by
  cases ls <;> simp [Spaced, spaced]

theorem divide_blank (cs : List Char) : divide .code (' ' :: cs) =
    ⟨⟨none, [' ']⟩ :: (divide .code cs).pieces, (divide .code cs).fault⟩ := by
  rw [divide]
  rfl

theorem divide_tag (cs : List Char) : divide .markup ((" <?php ").toList ++ cs) =
    ⟨⟨none, (" <?php").toList⟩ :: ⟨none, [' ']⟩ :: (divide .code cs).pieces,
      (divide .code cs).fault⟩ := by
  have hwidth : width .markup ' ' (("<?php ").toList ++ cs) = .ok (none, 5) := by
    rfl
  have hdrop : (("<?php ").toList ++ cs).drop 5 = ' ' :: cs := rfl
  have hcons : (" <?php ").toList ++ cs = ' ' :: (("<?php ").toList ++ cs) := rfl
  rw [hcons, divide, hwidth]
  simp only [hdrop, modeAfter, divide_blank]
  rfl

theorem divide_open (cs : List Char) : divide .markup (("<?php").toList ++ cs) =
    ⟨⟨none, ("<?php").toList⟩ :: (divide .code cs).pieces, (divide .code cs).fault⟩ := by
  have hwidth : width .markup '<' (("?php").toList ++ cs) = .ok (none, 4) := rfl
  have hcons : ("<?php").toList ++ cs = '<' :: (("?php").toList ++ cs) := rfl
  rw [hcons, divide, hwidth]
  rfl

/-- Tokens written with blanks between them are divided into themselves. -/
theorem lexemes_divide_spaced {ls : List (TokenKind × List Char)}
    (h : ∀ l ∈ ls, Lexes l.1 l.2) :
    (divide .code (spaced ls)).fault = none ∧ lexemes (divide .code (spaced ls)).pieces = ls := by
  induction ls with
  | nil =>
    rw [spaced, List.flatMap_nil, divide]
    exact ⟨rfl, rfl⟩
  | cons l ls ih =>
    obtain ⟨hfault, hlexemes⟩ := ih fun other hother => h other (List.mem_cons_of_mem _ hother)
    obtain ⟨kind, text⟩ := l
    obtain ⟨c, cs, rfl, hwidth⟩ := h (kind, text) List.mem_cons_self
    have htoken (more : List Char) (hmore : Spaced more) : divide .code (c :: (cs ++ more)) =
        ⟨⟨some kind, c :: cs⟩ :: (divide (modeAfter (some kind)) more).pieces,
          (divide (modeAfter (some kind)) more).fault⟩ := by
      rw [divide, width, hwidth more hmore]
      simp only [List.take_left, List.drop_left]
    have hspaced : spaced ((kind, c :: cs) :: ls) =
        ' ' :: (spelled (kind, c :: cs) ++ spaced ls) := rfl
    rw [hspaced, divide_blank, spelled]
    by_cases hclose : kind = .closeTag
    · subst hclose
      rw [if_pos rfl, List.cons_append, List.cons_append, List.append_assoc,
        htoken _ (by simp [Spaced])]
      simp only [modeAfter, divide_tag]
      exact ⟨hfault, congrArg _ hlexemes⟩
    · rw [if_neg hclose, List.cons_append, htoken _ (spaced_spaced ls)]
      have hmode : modeAfter (some kind) = .code := by
        cases kind <;> first | rfl | exact absurd rfl hclose
      rw [hmode]
      exact ⟨hfault, congrArg _ hlexemes⟩

/-- The tokens among pieces have their kinds and texts, in their order. -/
theorem lexemes_place (lead : List Char) (offset line : Nat) (pieces : List Piece) :
    (place lead offset line pieces).map (fun t => (t.kind, t.text.toList)) = lexemes pieces := by
  fun_induction place lead offset line pieces with
  | case1 => rfl
  | case2 lead offset line text rest ih => exact ih
  | case3 lead offset line kind text rest stop ih =>
    rw [List.map_cons, ih, String.toList_ofList]
    rfl

end Lexer

/-- A token as it is written among others: behind a closing tag code is opened again. -/
def Token.spelling (t : Token) : String :=
  if t.kind = .closeTag then t.text ++ " <?php " else t.text

/-- The source made of the tokens alone, with single spaces between them. -/
def Token.respaced (tokens : List Token) : String :=
  "<?php " ++ Text.join " " (tokens.map Token.spelling)

theorem Token.toList_spelling (t : Token) :
    t.spelling.toList = Lexer.spelled (t.kind, t.text.toList) := by
  rw [Token.spelling, Lexer.spelled]
  split
  · rw [String.toList_append]
  · rfl

theorem Token.toList_respaced_cons (t : Token) (ts : List Token) :
    (Token.respaced (t :: ts)).toList =
      ("<?php").toList ++ Lexer.spaced ((t :: ts).map fun t => (t.kind, t.text.toList)) := by
  have hjoin : ' ' :: (Text.join " " ((t :: ts).map Token.spelling)).toList =
      Lexer.spaced ((t :: ts).map fun t => (t.kind, t.text.toList)) := by
    rw [Text.join, String.toList_intercalate]
    induction ts generalizing t with
    | nil => simp [Lexer.spaced, Token.toList_spelling]
    | cons u us ih =>
      have hrest := ih u
      simp only [List.map_cons, Lexer.spaced, List.flatMap_cons] at hrest ⊢
      rw [List.intercalate_cons_cons, Token.toList_spelling, List.append_assoc, List.cons_append]
      exact congrArg (fun more => ' ' :: (Lexer.spelled (t.kind, t.text.toList) ++ more)) hrest
  rw [Token.respaced, String.toList_append, ← hjoin]
  rfl

/-- The kind of a token, and its text. -/
def Token.lexeme (t : Token) : TokenKind × String := (t.kind, t.text)

/-- A text without a fault has the tokens that are among its pieces. -/
theorem Token.exists_ofSource (source : String)
    (hfault : (Lexer.divide .markup source.toList).fault = none) :
    ∃ tokens, Token.ofSource source = .ok tokens ∧ tokens.map (fun t => (t.kind, t.text.toList)) =
      Lexer.lexemes (Lexer.divide .markup source.toList).pieces := by
  refine ⟨_, ?_, Lexer.lexemes_place [] 0 1 _⟩
  rw [Token.ofSource, hfault]

theorem Token.fault_ofSource {source : String} {tokens : List Token}
    (h : Token.ofSource source = .ok tokens) :
    (Lexer.divide .markup source.toList).fault = none := by
  rw [Token.ofSource] at h
  cases hfault : (Lexer.divide .markup source.toList).fault with
  | none => rfl
  | some fault => simp [hfault] at h

theorem Token.map_lexeme {ts us : List Token}
    (h : ts.map (fun t => (t.kind, t.text.toList)) = us.map fun t => (t.kind, t.text.toList)) :
    ts.map Token.lexeme = us.map Token.lexeme := by
  have hstring (ts : List Token) : ts.map Token.lexeme =
      (ts.map fun t => (t.kind, t.text.toList)).map fun l => (l.1, String.ofList l.2) := by
    rw [List.map_map]
    refine List.map_congr_left fun t _ => ?_
    rw [Function.comp_apply, String.ofList_toList]
    rfl
  rw [hstring ts, hstring us, h]

/-- The tokens of a source, written with single spaces between them, are tokens of the same kinds
and texts. -/
theorem Token.ofSource_respaced {source : String} {tokens : List Token}
    (h : Token.ofSource source = .ok tokens) :
    ∃ again, Token.ofSource (Token.respaced tokens) = .ok again ∧
      again.map Token.lexeme = tokens.map Token.lexeme := by
  obtain ⟨same, hsame, hlexemes⟩ := Token.exists_ofSource _ (Token.fault_ofSource h)
  obtain rfl : same = tokens := Except.ok.inj (hsame.symm.trans h)
  have hlexes := Lexer.lexes_of_divide .markup source.toList
  rw [← hlexemes] at hlexes
  obtain ⟨hnofault, hspaced⟩ := Lexer.lexemes_divide_spaced hlexes
  cases same with
  | nil => exact ⟨[], by decide +kernel, rfl⟩
  | cons t ts =>
    have hdivide := Lexer.divide_open (Lexer.spaced ((t :: ts).map fun t => (t.kind, t.text.toList)))
    rw [← Token.toList_respaced_cons] at hdivide
    obtain ⟨again, hagain, hnew⟩ := Token.exists_ofSource (Token.respaced (t :: ts))
      (by rw [hdivide]; exact hnofault)
    refine ⟨again, hagain, Token.map_lexeme ?_⟩
    rw [hnew, hdivide]
    exact hspaced

/-- A source with markup, comments, an attribute, a heredoc and a closing tag. -/
theorem Token.ofSource_respaced_mixed : ∃ tokens again,
    Token.ofSource "<p><?= $a?->b /* c */ . .5 ?> d\n<?php #[e(\"]\")]\n<<<F\n g\nF;" = .ok tokens ∧
    Token.respaced tokens = "<?php $a ?-> b . . 5 ?> <?php  <<<F\n g\nF ;" ∧
    Token.ofSource (Token.respaced tokens) = .ok again ∧
    again.map Token.lexeme = tokens.map Token.lexeme := by
  obtain ⟨tokens, htokens, -⟩ := Token.exists_ofSource
    "<p><?= $a?->b /* c */ . .5 ?> d\n<?php #[e(\"]\")]\n<<<F\n g\nF;" (by decide +kernel)
  obtain ⟨again, hagain, hsame⟩ := Token.ofSource_respaced htokens
  refine ⟨tokens, again, htokens, ?_, hagain, hsame⟩
  have hall : (Token.ofSource
      "<p><?= $a?->b /* c */ . .5 ?> d\n<?php #[e(\"]\")]\n<<<F\n g\nF;").toOption.map
        Token.respaced = some "<?php $a ?-> b . . 5 ?> <?php  <<<F\n g\nF ;" := by decide +kernel
  rw [htokens] at hall
  exact Option.some.inj hall

end ApiDoc
