import ApiDoc.Reader.Signature

/-!
# Properly nested tokens

`Nested` says of tokens that their brackets match, `Phrase` says in addition that they do not end a
statement outside of all brackets. Each width that a reader computes from the tokens ahead has one
lemma here: over nested tokens it counts all of them and goes on behind them.
-/

namespace ApiDoc

/-! ### Brackets -/

/-- An opening bracket and a closing one of the same sort. -/
def Token.Pairs (o c : Token) : Prop :=
  (o.is "(" = true ∧ c.is ")" = true) ∨ (o.is "[" = true ∧ c.is "]" = true) ∨
    (o.opensBlock = true ∧ c.closesBlock = true)

/-- Tokens whose brackets match. -/
inductive Nested : List Token → Prop
  | nil : Nested []
  | token {t : Token} {ts : List Token} :
    t.opens = false → t.closes = false → Nested ts → Nested (t :: ts)
  | group {o c : Token} {inner ts : List Token} :
    o.Pairs c → Nested inner → Nested ts → Nested (o :: (inner ++ c :: ts))

/-- Nested tokens that, outside of their brackets, neither end a statement nor are one of the
stops. -/
inductive Phrase (stops : List String) : List Token → Prop
  | nil : Phrase stops []
  | token {t : Token} {ts : List Token} : t.opens = false → t.closes = false →
    t.endsStatement = false → stops.contains t.text = false → Phrase stops ts →
    Phrase stops (t :: ts)
  | group {o c : Token} {inner ts : List Token} :
    o.Pairs c → Nested inner → Phrase stops ts → Phrase stops (o :: (inner ++ c :: ts))

/-- What may stand between the keyword of a declaration and its block: no brackets but groups in
parentheses, and no end of a statement. -/
inductive Header : List Token → Prop
  | nil : Header []
  | token {t : Token} {ts : List Token} : t.is "(" = false → t.is ")" = false →
    t.opensBlock = false → t.endsStatement = false → Header ts → Header (t :: ts)
  | group {o c : Token} {inner ts : List Token} : o.is "(" = true → c.is ")" = true →
    Nested inner → Header ts → Header (o :: (inner ++ c :: ts))

namespace Token

variable {t o c : Token}

theorem is_eq_true {punct : String} : t.is punct = true ↔ t.kind = .punct ∧ t.text = punct := by
  rw [Token.is, Bool.and_eq_true, beq_iff_eq, beq_iff_eq]

/-- A punctuation is not another one. -/
theorem is_eq_false {p q : String} (h : t.is p = true) (hne : p ≠ q) : t.is q = false := by
  rw [Bool.eq_false_iff]
  exact fun hq => hne ((is_eq_true.mp h).2.symm.trans (is_eq_true.mp hq).2)

theorem endsStatement_of_is {p : String} (h : t.is p = true) (hne : p ≠ ";") :
    t.endsStatement = false := by
  rw [Token.endsStatement, is_eq_false h hne, Bool.false_or, (is_eq_true.mp h).1]
  rfl

theorem Pairs.opens (h : o.Pairs c) : o.opens = true := by
  rcases h with ⟨ho, -⟩ | ⟨ho, -⟩ | ⟨ho, -⟩ <;> simp [Token.opens, ho]

theorem Pairs.closes (h : o.Pairs c) : c.closes = true := by
  rcases h with ⟨-, hc⟩ | ⟨-, hc⟩ | ⟨-, hc⟩ <;> simp [Token.closes, hc]

theorem opens_eq_false_of_closes (h : t.closes = true) : t.opens = false := by
  rcases (by simpa [Token.closes, or_assoc] using h :
    t.is ")" = true ∨ t.is "]" = true ∨ t.closesBlock = true) with h | h | h
  all_goals
    simp only [Token.opens, Token.opensBlock, Bool.or_eq_false_iff]
    exact ⟨⟨is_eq_false h (by decide), is_eq_false h (by decide)⟩, is_eq_false h (by decide)⟩

end Token

/-! ### Counting over nested tokens -/

/-- A count goes over nested tokens one by one: it comes back to the same depth behind every pair of
brackets. `shift n` adds `n` tokens to a count. -/
structure Counts {β : Type} (shift : Nat → β → β) (count : Nat → List Token → β) : Prop where
  zero : ∀ b, shift 0 b = b
  add : ∀ m n b, shift m (shift n b) = shift (n + m) b
  token : ∀ t ts depth, t.opens = false → t.closes = false →
    count depth (t :: ts) = shift 1 (count depth ts)
  pair : ∀ o c : Token, o.Pairs c → ∃ more, ∀ ts depth,
    count depth (o :: ts) = shift 1 (count (depth + more) ts) ∧
      count (depth + more) (c :: ts) = shift 1 (count depth ts)

theorem Nested.count_append {β : Type} {shift : Nat → β → β} {count : Nat → List Token → β}
    (hcount : Counts shift count) {ts : List Token} (h : Nested ts) (depth : Nat)
    (rest : List Token) : count depth (ts ++ rest) = shift ts.length (count depth rest) := by
  induction h generalizing depth rest with
  | nil => exact (hcount.zero _).symm
  | token hopens hcloses _ ih =>
    rw [List.cons_append, hcount.token _ _ _ hopens hcloses, ih, hcount.add, List.length_cons]
  | @group o c inner ts hpairs _ _ ihinner ih =>
    obtain ⟨more, hmore⟩ := hcount.pair o c hpairs
    have hlength : (o :: (inner ++ c :: ts)).length = ts.length + (1 + (inner.length + 1)) := by
      simp only [List.length_cons, List.length_append]
      omega
    rw [List.cons_append, List.append_assoc, List.cons_append, (hmore _ depth).1, ihinner,
      (hmore _ depth).2, ih, hcount.add, hcount.add, hcount.add, hlength]

namespace Cursor

theorem statementWidth_opens {t : Token} (h : t.opens = true) (depth : Nat) (ts : List Token) :
    statementWidth depth (t :: ts) = statementWidth (depth + 1) ts + 1 := by
  rw [statementWidth.eq_def]
  simp only [h, if_true]

theorem statementWidth_closes {t : Token} (h : t.closes = true) (depth : Nat) (ts : List Token) :
    statementWidth (depth + 1) (t :: ts) = statementWidth depth ts + 1 := by
  rw [statementWidth, Token.opens_eq_false_of_closes h, h]
  rfl

theorem statementWidth_token {t : Token} (hopens : t.opens = false) (hcloses : t.closes = false)
    {depth : Nat} (hdepth : 0 < depth ∨ t.endsStatement = false) (ts : List Token) :
    statementWidth depth (t :: ts) = statementWidth depth ts + 1 := by
  rw [statementWidth.eq_def]
  rcases hdepth with hdepth | hend
  · simp [hopens, hcloses, Nat.pos_iff_ne_zero.mp hdepth]
  · simp [hopens, hcloses, hend]

theorem counts_statementWidth :
    Counts (fun n b => b + n) (fun depth => statementWidth (depth + 1)) where
  zero _ := rfl
  add m n b := Nat.add_assoc b n m
  token _ ts depth hopens hcloses :=
    statementWidth_token hopens hcloses (.inl (Nat.succ_pos depth)) ts
  pair _ _ h := ⟨1, fun ts depth =>
    ⟨statementWidth_opens h.opens (depth + 1) ts, statementWidth_closes h.closes (depth + 1) ts⟩⟩

theorem expressionWidth_opens {t : Token} (h : t.opens = true) (stops : List String) (depth : Nat)
    (ts : List Token) :
    expressionWidth stops depth (t :: ts) = expressionWidth stops (depth + 1) ts + 1 := by
  rw [expressionWidth.eq_def]
  simp only [h, if_true]

theorem expressionWidth_closes {t : Token} (h : t.closes = true) (stops : List String) (depth : Nat)
    (ts : List Token) :
    expressionWidth stops (depth + 1) (t :: ts) = expressionWidth stops depth ts + 1 := by
  rw [expressionWidth, Token.opens_eq_false_of_closes h, h]
  rfl

theorem expressionWidth_token {t : Token} {stops : List String} (hopens : t.opens = false)
    (hcloses : t.closes = false) {depth : Nat}
    (hdepth : 0 < depth ∨ t.endsStatement = false ∧ stops.contains t.text = false)
    (ts : List Token) :
    expressionWidth stops depth (t :: ts) = expressionWidth stops depth ts + 1 := by
  rw [expressionWidth.eq_def]
  rcases hdepth with hdepth | ⟨hend, hstop⟩
  · simp [hopens, hcloses, Nat.pos_iff_ne_zero.mp hdepth]
  · simp only [hopens, hcloses, hend, hstop, Bool.or_self, Bool.and_false, Bool.false_eq_true,
      if_false]

theorem counts_expressionWidth (stops : List String) :
    Counts (fun n b => b + n) (fun depth => expressionWidth stops (depth + 1)) where
  zero _ := rfl
  add m n b := Nat.add_assoc b n m
  token _ ts depth hopens hcloses :=
    expressionWidth_token hopens hcloses (.inl (Nat.succ_pos depth)) ts
  pair _ _ h := ⟨1, fun ts depth =>
    ⟨expressionWidth_opens h.opens stops (depth + 1) ts,
      expressionWidth_closes h.closes stops (depth + 1) ts⟩⟩

theorem blockWidth_token {t : Token} (hopens : t.opensBlock = false)
    (hcloses : t.closesBlock = false) (depth : Nat) (ts : List Token) :
    blockWidth depth (t :: ts) = (blockWidth depth ts).map (· + 1) := by
  rw [blockWidth.eq_def]
  simp [hopens, hcloses]

theorem counts_blockWidth : Counts (fun n (b : Option Nat) => b.map (· + n)) blockWidth where
  zero b := by simp
  add m n b := by
    rw [Option.map_map]
    exact congrArg (b.map ·) (funext fun k => Nat.add_assoc k n m)
  token t ts depth hopens hcloses := by
    simp only [Token.opens, Bool.or_eq_false_iff] at hopens
    simp only [Token.closes, Bool.or_eq_false_iff] at hcloses
    exact blockWidth_token hopens.2 hcloses.2 depth ts
  pair o c h := by
    have hplain {t : Token} {p : String} (ht : t.is p = true) (hopen : p ≠ "\x7b")
        (hclose : p ≠ "\x7d") (depth : Nat) (ts : List Token) :
        blockWidth depth (t :: ts) = (blockWidth depth ts).map (· + 1) :=
      blockWidth_token (Token.is_eq_false ht hopen) (Token.is_eq_false ht hclose) depth ts
    rcases h with ⟨ho, hc⟩ | ⟨ho, hc⟩ | ⟨ho, hc⟩
    · exact ⟨0, fun ts depth => ⟨hplain ho (by decide) (by decide) depth ts,
        hplain hc (by decide) (by decide) depth ts⟩⟩
    · exact ⟨0, fun ts depth => ⟨hplain ho (by decide) (by decide) depth ts,
        hplain hc (by decide) (by decide) depth ts⟩⟩
    · refine ⟨1, fun ts depth => ⟨?_, ?_⟩⟩
      · rw [blockWidth.eq_def]
        simp only [ho, if_true]
      · have hopens : c.opensBlock = false := Token.is_eq_false hc (by decide)
        rw [blockWidth.eq_def]
        simp [hopens, hc]

/-- A token that is no parenthesis is passed over in front of a block, inside parentheses in any
case. -/
theorem headerWidth_token {t : Token} (hopen : t.is "(" = false) (hclose : t.is ")" = false)
    {depth : Nat} (hdepth : 0 < depth ∨ t.opensBlock = false ∧ t.endsStatement = false)
    (ts : List Token) : headerWidth depth (t :: ts) =
      ((headerWidth depth ts).1 + 1, (headerWidth depth ts).2) := by
  rw [headerWidth.eq_def]
  rcases hdepth with hdepth | ⟨hblock, hend⟩
  · simp [hopen, hclose, Nat.pos_iff_ne_zero.mp hdepth]
  · simp [hopen, hclose, hblock, hend]

theorem headerWidth_open {t : Token} (h : t.is "(" = true) (depth : Nat) (ts : List Token) :
    headerWidth depth (t :: ts) =
      ((headerWidth (depth + 1) ts).1 + 1, (headerWidth (depth + 1) ts).2) := by
  rw [headerWidth.eq_def]
  simp only [h, if_true]

theorem headerWidth_close {t : Token} (h : t.is ")" = true) (depth : Nat) (ts : List Token) :
    headerWidth (depth + 1) (t :: ts) =
      ((headerWidth depth ts).1 + 1, (headerWidth depth ts).2) := by
  rw [headerWidth.eq_def]
  simp [Token.is_eq_false h (show ")" ≠ "(" by decide), h]

theorem counts_headerWidth : Counts (fun n (b : Nat × Option Nat) => (b.1 + n, b.2))
    (fun depth => headerWidth (depth + 1)) where
  zero _ := rfl
  add m n b := Prod.ext (Nat.add_assoc b.1 n m) rfl
  token t ts depth hopens hcloses := by
    simp only [Token.opens, Bool.or_eq_false_iff] at hopens
    simp only [Token.closes, Bool.or_eq_false_iff] at hcloses
    exact headerWidth_token hopens.1.1 hcloses.1.1 (.inl (Nat.succ_pos depth)) ts
  pair o c h := by
    have hplain {t : Token} {p : String} (ht : t.is p = true) (hopen : p ≠ "(") (hclose : p ≠ ")")
        (depth : Nat) (ts : List Token) : headerWidth (depth + 1) (t :: ts) =
          ((headerWidth (depth + 1) ts).1 + 1, (headerWidth (depth + 1) ts).2) :=
      headerWidth_token (Token.is_eq_false ht hopen) (Token.is_eq_false ht hclose)
        (.inl (Nat.succ_pos depth)) ts
    rcases h with ⟨ho, hc⟩ | ⟨ho, hc⟩ | ⟨ho, hc⟩
    · exact ⟨1, fun ts depth => ⟨headerWidth_open ho (depth + 1) ts,
        headerWidth_close hc (depth + 1) ts⟩⟩
    · exact ⟨0, fun ts depth => ⟨hplain ho (by decide) (by decide) depth ts,
        hplain hc (by decide) (by decide) depth ts⟩⟩
    · exact ⟨0, fun ts depth => ⟨hplain ho (by decide) (by decide) depth ts,
        hplain hc (by decide) (by decide) depth ts⟩⟩

end Cursor

namespace Reader

/-- How many tokens a parameter list has does not depend on the parameter at hand. -/
theorem snd_parameterPieces (depth : Nat) (p q : List Token) (ts : List Token) :
    (parameterPieces depth p ts).2 = (parameterPieces depth q ts).2 := by
  induction ts generalizing depth p q with
  | nil => rfl
  | cons t ts ih =>
    rw [parameterPieces.eq_def, parameterPieces.eq_def depth q]
    dsimp only
    split
    · simp only [ih (depth + 1) (t :: p) (t :: q)]
    · split
      · simp only [ih (depth - 1) (t :: p) (t :: q)]
      · split
        · rfl
        · split
          · rfl
          · simp only [ih depth (t :: p) (t :: q)]

/-- How many tokens a parameter list has up to its closing parenthesis, and whether it has one. -/
def listWidth (depth : Nat) (ts : List Token) : Nat × Bool := (parameterPieces depth [] ts).2

theorem listWidth_opens {t : Token} (h : t.opens = true) (depth : Nat) (ts : List Token) :
    listWidth depth (t :: ts) =
      ((listWidth (depth + 1) ts).1 + 1, (listWidth (depth + 1) ts).2) := by
  rw [listWidth, listWidth, parameterPieces.eq_def]
  simp only [h, if_true, snd_parameterPieces (depth + 1) [t] []]

theorem listWidth_closes {t : Token} (h : t.closes = true) (depth : Nat) (ts : List Token) :
    listWidth (depth + 1) (t :: ts) = ((listWidth depth ts).1 + 1, (listWidth depth ts).2) := by
  rw [listWidth, listWidth, parameterPieces.eq_def]
  simp [Token.opens_eq_false_of_closes h, h, snd_parameterPieces depth [t] []]

theorem listWidth_token {t : Token} (hopens : t.opens = false) (hcloses : t.closes = false)
    (depth : Nat) (ts : List Token) :
    listWidth depth (t :: ts) = ((listWidth depth ts).1 + 1, (listWidth depth ts).2) := by
  have hclose : t.is ")" = false := by
    simp only [Token.closes, Bool.or_eq_false_iff] at hcloses
    exact hcloses.1.1
  rw [listWidth, listWidth, parameterPieces.eq_def]
  simp only [hopens, hcloses, hclose, Bool.false_and, Bool.false_eq_true, if_false]
  split
  · next hcomma =>
    obtain rfl : depth = 0 := by simpa using (Bool.and_eq_true_iff.mp hcomma).1
    rfl
  · simp only [snd_parameterPieces depth [t] []]

theorem counts_listWidth : Counts (fun n (b : Nat × Bool) => (b.1 + n, b.2)) listWidth where
  zero _ := rfl
  add m n b := Prod.ext (Nat.add_assoc b.1 n m) rfl
  token _ ts depth hopens hcloses := listWidth_token hopens hcloses depth ts
  pair _ _ h := ⟨1, fun ts depth => ⟨listWidth_opens h.opens depth ts,
    listWidth_closes h.closes depth ts⟩⟩

/-- A parameter list ends at the parenthesis that closes it. -/
theorem listWidth_nested {ts : List Token} (h : Nested ts) {c : Token} (hc : c.is ")" = true)
    (rest : List Token) : listWidth 0 (ts ++ c :: rest) = (ts.length + 1, true) := by
  have hcloses : c.closes = true := by simp [Token.closes, hc]
  rw [h.count_append counts_listWidth, listWidth, parameterPieces.eq_def]
  simp [Token.opens_eq_false_of_closes hcloses, hc, Nat.add_comm]

end Reader

/-! ### Parts of statements -/

namespace Cursor

/-- The block at hand ends at the brace that closes it. -/
theorem blockWidth_nested {ts : List Token} (h : Nested ts) {c : Token}
    (hc : c.closesBlock = true) (rest : List Token) :
    blockWidth 0 (ts ++ c :: rest) = some (ts.length + 1) := by
  have hopens : c.opensBlock = false := Token.is_eq_false hc (by decide)
  rw [h.count_append counts_blockWidth, blockWidth.eq_def]
  simp [hopens, hc, Nat.add_comm]

theorem headerWidth_header {ts : List Token} (h : Header ts) {o : Token}
    (ho : o.opensBlock = true) (rest : List Token) :
    headerWidth 0 (ts ++ o :: rest) = (ts.length + 1, some o.line) := by
  induction h with
  | nil =>
    rw [List.nil_append, headerWidth.eq_def]
    simp [Token.is_eq_false ho (show "\x7b" ≠ "(" by decide),
      Token.is_eq_false ho (show "\x7b" ≠ ")" by decide), ho]
  | token hopen hclose hblock hend _ ih =>
    rw [List.cons_append, headerWidth_token hopen hclose (.inr ⟨hblock, hend⟩), ih]
    rfl
  | @group p c inner ts hp hc hinner _ ih =>
    rw [List.cons_append, List.append_assoc, List.cons_append, headerWidth_open hp,
      hinner.count_append counts_headerWidth, headerWidth_close hc, ih]
    simp only [List.length_cons, List.length_append, Prod.mk.injEq, and_true]
    omega

end Cursor

namespace Phrase

open Cursor

variable {stops : List String}

theorem statementWidth_append {ts : List Token} (h : Phrase stops ts) (rest : List Token) :
    statementWidth 0 (ts ++ rest) = statementWidth 0 rest + ts.length := by
  induction h with
  | nil => rfl
  | token hopens hcloses hend _ _ ih =>
    rw [List.cons_append, statementWidth_token hopens hcloses (.inr hend), ih, List.length_cons,
      Nat.add_assoc]
  | @group o c inner ts hpairs hinner _ ih =>
    rw [List.cons_append, List.append_assoc, List.cons_append, statementWidth_opens hpairs.opens,
      hinner.count_append counts_statementWidth, statementWidth_closes hpairs.closes, ih]
    simp only [List.length_cons, List.length_append]
    omega

theorem expressionWidth_append {ts : List Token} (h : Phrase stops ts) (rest : List Token) :
    expressionWidth stops 0 (ts ++ rest) = expressionWidth stops 0 rest + ts.length := by
  induction h with
  | nil => rfl
  | token hopens hcloses hend hstop _ ih =>
    rw [List.cons_append, expressionWidth_token hopens hcloses (.inr ⟨hend, hstop⟩), ih,
      List.length_cons, Nat.add_assoc]
  | @group o c inner ts hpairs hinner _ ih =>
    rw [List.cons_append, List.append_assoc, List.cons_append, expressionWidth_opens hpairs.opens,
      hinner.count_append (counts_expressionWidth stops), expressionWidth_closes hpairs.closes, ih]
    simp only [List.length_cons, List.length_append]
    omega

end Phrase

namespace Phrase

/-- The first token of a phrase that is no bracket may be left out. -/
theorem of_cons {stops : List String} {t : Token} {ts : List Token} (h : Phrase stops (t :: ts))
    (ht : t.opens = false) : Phrase stops ts := by
  cases h with
  | token _ _ _ _ hts => exact hts
  | group hpairs _ _ => simp [hpairs.opens] at ht

/-- A phrase is a phrase with a stop up to the first of them outside of all brackets. -/
theorem exists_stop {ts : List Token} (h : Phrase [] ts) (stop : String) :
    ∃ front back, ts = front ++ back ∧ Phrase [stop] front ∧ Phrase [] back ∧
      (back = [] ∨ ∃ t more, back = t :: more ∧ t.opens = false ∧ t.text = stop) := by
  induction h with
  | nil => exact ⟨[], [], rfl, .nil, .nil, .inl rfl⟩
  | @token t ts hopens hcloses hend _ hts ih =>
    by_cases hstop : t.text = stop
    · exact ⟨[], t :: ts, rfl, .nil, .token hopens hcloses hend rfl hts,
        .inr ⟨t, ts, rfl, hopens, hstop⟩⟩
    · obtain ⟨front, back, rfl, hfront, hback, hcase⟩ := ih
      exact ⟨t :: front, back, rfl, .token hopens hcloses hend (by simpa using hstop) hfront, hback,
        hcase⟩
  | @group o c inner ts hpairs hinner _ ih =>
    obtain ⟨front, back, rfl, hfront, hback, hcase⟩ := ih
    exact ⟨o :: (inner ++ c :: front), back, by simp, .group hpairs hinner hfront, hback, hcase⟩

end Phrase

/-! ### Moves over nested tokens -/

/-- The end of a statement is no bracket. -/
theorem Token.plain_of_endsStatement {t : Token} (h : t.endsStatement = true) :
    t.opens = false ∧ t.closes = false := by
  have hplain (p : String) (hp : p ≠ ";") : t.is p = false := by
    rcases Bool.or_eq_true_iff.mp h with hsemi | hclose
    · exact Token.is_eq_false hsemi hp.symm
    · rw [Token.is, beq_iff_eq.mp hclose]
      rfl
  simp [Token.opens, Token.closes, Token.opensBlock, Token.closesBlock, hplain]

namespace Cursor

variable {c : Cursor} {t : Token} {ts rest : List Token}

theorem step_of_rest (h : c.rest = t :: rest) : c.step = ⟨some t, rest⟩ := by
  rw [step, h]

theorem eat_of_rest (h : c.rest = t :: rest) {test : Token → Bool} (ht : test t = true) :
    c.eat test = some ⟨some t, rest⟩ := by
  rw [eat, next, peek, h, step_of_rest h]
  exact if_pos ht

theorem eat_eq_none (h : c.rest = t :: rest) {test : Token → Bool} (ht : test t = false) :
    c.eat test = none := by
  rw [eat, next, peek, h]
  exact if_neg (by simp [ht])

theorem eatPunct_of_rest (h : c.rest = t :: rest) {punct : String} (ht : t.is punct = true) :
    c.eatPunct punct = some ⟨some t, rest⟩ := eat_of_rest h ht

theorem eatPunct_eq_none (h : c.rest = t :: rest) {punct : String} (ht : t.is punct = false) :
    c.eatPunct punct = none := eat_eq_none h ht

theorem eatKeyword_of_rest (h : c.rest = t :: rest) {word : String}
    (ht : t.isKeyword word = true) : c.eatKeyword word = some ⟨some t, rest⟩ := eat_of_rest h ht

theorem eatKeyword_eq_none (h : c.rest = t :: rest) {word : String}
    (ht : t.isKeyword word = false) : c.eatKeyword word = none := eat_eq_none h ht

theorem name?_of_rest (h : c.rest = t :: rest) (ht : t.kind = .name) :
    c.name? = some (t, ⟨some t, rest⟩) := by
  rw [name?, take?, h]
  simp only [ht, if_true, step_of_rest h]

theorem name?_eq_none (h : c.rest = t :: rest) (ht : t.kind ≠ .name) : c.name? = none := by
  rw [name?, take?, h]
  simp only [ht, if_false]

theorem skip_append (h : c.rest = ts ++ rest) : (c.skip ts.length).rest = rest := by
  rw [rest_skip, h, List.drop_left]

theorem skip_concat (h : c.rest = ts ++ t :: rest) : c.skip (ts.length + 1) = ⟨some t, rest⟩ := by
  induction ts generalizing c with
  | nil => exact step_of_rest h
  | cons first ts ih =>
    refine ih ?_
    rw [step_of_rest h]
    rfl

theorem dropEnd_of_rest (h : c.rest = t :: rest) (ht : t.endsStatement = true) :
    c.dropEnd = ⟨some t, rest⟩ := by
  rw [dropEnd, eat_of_rest h ht]
  rfl

theorem dropEnd_eq_self (h : c.rest = t :: rest) (ht : t.endsStatement = false) : c.dropEnd = c := by
  rw [dropEnd, eat_eq_none h ht]
  rfl

/-- A statement is passed over with its end. -/
theorem skipStatement_of_end {stops : List String} (hts : Phrase stops ts)
    (ht : t.endsStatement = true) (h : c.rest = ts ++ t :: rest) :
    c.skipStatement = ⟨some t, rest⟩ := by
  obtain ⟨hopens, hcloses⟩ := Token.plain_of_endsStatement ht
  have hwidth : statementWidth 0 c.rest = ts.length + 1 := by
    rw [h, hts.statementWidth_append, statementWidth.eq_def]
    simp [hopens, hcloses, ht, Nat.add_comm]
  rw [skipStatement, hwidth, skip_concat h]

/-- A statement ends in front of the bracket that closes what is around it. -/
theorem skipStatement_of_closes {stops : List String} (hts : Phrase stops ts)
    (ht : t.closes = true) (h : c.rest = ts ++ t :: rest) : c.skipStatement.rest = t :: rest := by
  have hwidth : statementWidth 0 c.rest = ts.length := by
    rw [h, hts.statementWidth_append, statementWidth.eq_def]
    simp [Token.opens_eq_false_of_closes ht, ht]
  rw [skipStatement, hwidth, skip_append h]

/-- An expression ends in front of what is no part of it. -/
theorem expression_of_stop {stops : List String} (h : c.rest = ts ++ t :: rest)
    (hts : Phrase stops ts)
    (ht : t.closes = true ∨ t.opens = false ∧ (t.endsStatement || stops.contains t.text) = true) :
    (c.expression stops).2.rest = t :: rest := by
  have hstop : expressionWidth stops 0 (t :: rest) = 0 := by
    rw [expressionWidth.eq_def]
    rcases ht with hcloses | ⟨hopens, hend⟩
    · simp [Token.opens_eq_false_of_closes hcloses, hcloses]
    · cases hcloses : t.closes with
      | true => simp [hopens, hcloses]
      | false => simp only [hopens, hcloses, hend, decide_true, Bool.and_self, Bool.false_eq_true,
          if_false, if_true]
  rw [expression]
  dsimp only
  rw [h, hts.expressionWidth_append, hstop, Nat.zero_add, skip_append h]

end Cursor

end ApiDoc
