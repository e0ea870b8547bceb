import ApiDoc.Proofs.Progress

/-!
# Another ending

How far the reader looks ahead. The last tokens of a list are exchanged for others (`Ending`), and
in front of them only the byte positions may change (`Token.bare`): a routine that comes to its end
in front of the exchanged tokens, with the next token still the old one, does the same as before. So
there is one equation for each routine, with a bound on the place that it comes to (`Ending.Fits`).
If no token is exchanged there is nothing to keep away from, and the equations say that the byte
positions are never read.
-/

namespace ApiDoc

def Token.bare (t : Token) : Token := { t with start := 0, stop := 0 }

namespace Token

@[simp] theorem kind_bare (t : Token) : t.bare.kind = t.kind := rfl
@[simp] theorem text_bare (t : Token) : t.bare.text = t.text := rfl
@[simp] theorem line_bare (t : Token) : t.bare.line = t.line := rfl
@[simp] theorem is_bare (t : Token) (p : String) : t.bare.is p = t.is p := rfl
@[simp] theorem isKeyword_bare (t : Token) (w : String) : t.bare.isKeyword w = t.isKeyword w := rfl
@[simp] theorem endsStatement_bare (t : Token) : t.bare.endsStatement = t.endsStatement := rfl
@[simp] theorem opensBlock_bare (t : Token) : t.bare.opensBlock = t.opensBlock := rfl
@[simp] theorem closesBlock_bare (t : Token) : t.bare.closesBlock = t.closesBlock := rfl
@[simp] theorem opens_bare (t : Token) : t.bare.opens = t.opens := rfl
@[simp] theorem closes_bare (t : Token) : t.bare.closes = t.closes := rfl
@[simp] theorem bare_bare (t : Token) : t.bare.bare = t.bare := rfl

theorem gapped_bare (ts : List Token) : gapped (ts.map bare) = gapped ts := by
  induction ts with
  | nil => rfl
  | cons t ts ih => exact congrArg (t.lead.toList ++ t.text.toList ++ ·) ih

@[simp] theorem sourceText_bare (ts : List Token) : sourceText (ts.map bare) = sourceText ts := by
  cases ts with
  | nil => rfl
  | cons t ts => exact congrArg (t.text.toList ++ ·) (gapped_bare ts)

end Token

/-- Another ending for a list of tokens: it stands in the place of the last of them. -/
structure Ending where
  count : Nat
  tokens : List Token

def Ending.none : Ending := ⟨0, []⟩

/-- The place with another ending of the tokens ahead. -/
def Cursor.swap (c : Cursor) (e : Ending) : Cursor where
  previous := c.previous.map Token.bare
  rest := (c.rest.take (c.rest.length - e.count)).map Token.bare ++ e.tokens

/-- If nothing is exchanged, only the byte positions go. -/
@[simp] theorem Cursor.rest_swap_none (c : Cursor) :
    (c.swap .none).rest = c.rest.map Token.bare := by
  simp [swap, Ending.none]

/-- At least some tokens stand in front of those that are exchanged, if any are. -/
def Ending.Fits (e : Ending) (n : Nat) (c : Cursor) : Prop :=
  e.count + n ≤ c.rest.length ∨ e = .none

/-- The first tokens are at least some, or nothing is behind them before and after an exchange. -/
def Ending.Short (front tail new : List Token) (n : Nat) : Prop :=
  n ≤ front.length ∨ tail = [] ∧ new = []

namespace Ending.Short

variable {front tail new : List Token} {t : Token} {n : Nat}

theorem mono {m : Nat} (h : Short front tail new n) (hm : m ≤ n) : Short front tail new m :=
  h.imp (Nat.le_trans hm) id

theorem of_cons (h : Short (t :: front) tail new (n + 1)) : Short front tail new n :=
  h.imp Nat.le_of_succ_le_succ id

theorem eq_of_nil (h : Short [] tail new (n + 1)) : new = tail := by
  obtain ⟨rfl, rfl⟩ := h.resolve_left (Nat.not_succ_le_zero _)
  rfl

end Ending.Short

namespace Ending.Fits

variable {e : Ending} {c d : Cursor} {n m : Nat}

theorem none (n : Nat) (c : Cursor) : Ending.none.Fits n c := .inr rfl

theorem mono (h : e.Fits n c) (hm : m ≤ n) : e.Fits m c :=
  h.imp (fun h => by omega) id

/-- What fits behind a place fits at the place. -/
theorem back (h : e.Fits n d) (hd : c.Leads d) : e.Fits n c :=
  h.imp (fun h => Nat.le_trans h hd.length_le) id

/-- The tokens that are passed over stay too. -/
theorem of_skip (h : e.Fits 1 (c.skip n)) : e.Fits (n + 1) c := by
  refine h.imp (fun h => ?_) id
  rw [Cursor.rest_skip, List.length_drop] at h
  omega

theorem step (h : e.Fits (n + 1) c) : e.Fits n c.step := by
  refine h.imp (fun h => ?_) id
  have hrest : c.step.rest.length = c.rest.length - 1 := by
    rw [show c.step = c.skip 1 from rfl, Cursor.rest_skip, List.length_drop]
  omega

/-- With no more tokens than that nothing is exchanged. -/
theorem eq_none (h : e.Fits (c.rest.length + 1) c) : e = .none :=
  h.resolve_left (by omega)

/-- The tokens ahead are those that stay and those that are exchanged. -/
theorem split (h : e.Fits n c) : ∃ front tail, c.rest = front ++ tail ∧
    (c.swap e).rest = front.map Token.bare ++ e.tokens ∧ Short front tail e.tokens n := by
  rcases h with h | rfl
  · refine ⟨c.rest.take (c.rest.length - e.count), c.rest.drop (c.rest.length - e.count),
      (List.take_append_drop _ _).symm, rfl, .inl ?_⟩
    rw [List.length_take]
    omega
  · exact ⟨c.rest, [], (List.append_nil _).symm, c.rest_swap_none.trans (by simp [Ending.none]),
      .inr ⟨rfl, rfl⟩⟩

end Ending.Fits

namespace Cursor

open Ending (Short)

variable {e : Ending} {c : Cursor} {n : Nat}

theorem swap_nil (h : e.Fits 1 c) (hc : c.rest = []) : (c.swap e).rest = [] := by
  obtain ⟨front, tail, hsplit, hswap, hlength⟩ := h.split
  rw [hc, eq_comm, List.append_eq_nil_iff] at hsplit
  obtain ⟨rfl, rfl⟩ := hsplit
  rw [hswap, (hlength.resolve_left (by decide)).2]
  rfl

theorem swap_cons {t : Token} {rest : List Token} (h : e.Fits 1 c) (hc : c.rest = t :: rest) :
    (c.swap e).rest = t.bare :: (c.step.swap e).rest := by
  rcases h with h | rfl
  · have hlength : c.rest.length - e.count = rest.length - e.count + 1 := by
      rw [hc, List.length_cons] at h ⊢
      omega
    rw [step_of_rest hc, swap, swap, hlength, hc]
    rfl
  · simp [step_of_rest hc, hc]

theorem peek_swap (h : e.Fits 1 c) : (c.swap e).peek = c.peek.map Token.bare := by
  rw [peek, peek]
  cases hc : c.rest with
  | nil => rw [swap_nil h hc]; rfl
  | cons t rest => rw [swap_cons h hc]; rfl

theorem step_swap (h : e.Fits 1 c) : (c.swap e).step = c.step.swap e := by
  cases hc : c.rest with
  | nil => rw [step_of_nil hc, step_of_nil (swap_nil h hc)]
  | cons t rest =>
    rw [step_of_rest (swap_cons h hc), step_of_rest hc]
    rfl

theorem skip_swap (h : e.Fits n c) : (c.swap e).skip n = (c.skip n).swap e := by
  induction n generalizing c with
  | zero => rfl
  | succ n ih => rw [skip, skip, step_swap (h.mono (Nat.succ_le_succ n.zero_le)), ih h.step]

theorem peekAt_swap (h : e.Fits (n + 1) c) :
    (c.swap e).peekAt n = (c.peekAt n).map Token.bare := by
  obtain ⟨front, tail, hsplit, hswap, hlength⟩ := h.split
  rw [peekAt, peekAt, hsplit, hswap]
  rcases hlength with hlength | ⟨rfl, htokens⟩
  · have hlength' : n < (front.map Token.bare).length := by
      rw [List.length_map]
      exact hlength
    rw [List.getElem?_append_left hlength, List.getElem?_append_left hlength',
      List.getElem?_map]
  · rw [htokens, List.append_nil, List.append_nil, List.getElem?_map]

theorem line_swap (h : e.Fits 1 c) : (c.swap e).line = c.line := by
  rw [line, line, peek_swap h, Option.map_map]
  rfl

section Tests

variable {test : Token → Bool} (htest : ∀ t : Token, test t.bare = test t)

include htest

theorem next_swap (h : e.Fits 1 c) : (c.swap e).next test = c.next test := by
  rw [next, next, peek_swap h, Option.any_map]
  exact congrArg (c.peek.any ·) (funext htest)

theorem eat_swap (h : e.Fits 1 c) :
    (c.swap e).eat test = (c.eat test).map (·.swap e) := by
  rw [eat, eat, next_swap htest h, step_swap h]
  cases c.next test <;> rfl

theorem eat_getD_swap (h : e.Fits 1 c) :
    ((c.swap e).eat test).getD (c.swap e) = ((c.eat test).getD c).swap e := by
  rw [eat_swap htest h]
  cases c.eat test <;> rfl

end Tests

theorem eatPunct_swap (h : e.Fits 1 c) (p : String) :
    (c.swap e).eatPunct p = (c.eatPunct p).map (·.swap e) := eat_swap (fun _ => rfl) h

theorem eatPunct_getD_swap (h : e.Fits 1 c) (p : String) :
    ((c.swap e).eatPunct p).getD (c.swap e) = ((c.eatPunct p).getD c).swap e :=
  eat_getD_swap (fun _ => rfl) h

theorem eatKeyword_swap (h : e.Fits 1 c) (w : String) :
    (c.swap e).eatKeyword w = (c.eatKeyword w).map (·.swap e) := eat_swap (fun _ => rfl) h

theorem dropEnd_swap (h : e.Fits 1 c) : (c.swap e).dropEnd = c.dropEnd.swap e :=
  eat_getD_swap (fun _ => rfl) h

theorem take?_swap (h : e.Fits 1 c) (kind : TokenKind) :
    (c.swap e).take? kind = (c.take? kind).map fun p => (p.1.bare, p.2.swap e) := by
  rw [take?, take?]
  cases hc : c.rest with
  | nil => rw [swap_nil h hc]; rfl
  | cons t rest =>
    rw [swap_cons h hc, step_swap h]
    by_cases hkind : t.kind = kind <;> simp [hkind]

theorem name?_swap (h : e.Fits 1 c) :
    (c.swap e).name? = c.name?.map fun p => (p.1.bare, p.2.swap e) := take?_swap h .name

/-! ### Widths -/

section Widths

variable {front tail new : List Token} {depth : Nat}

theorem statementWidth_exchange
    (h : Short front tail new (statementWidth depth (front ++ tail) + 1)) :
    statementWidth depth (front.map Token.bare ++ new) = statementWidth depth (front ++ tail) := by
  induction front generalizing depth with
  | nil => exact congrArg _ h.eq_of_nil
  | cons t front ih =>
    rw [List.cons_append, statementWidth.eq_def] at h
    rw [List.cons_append, List.map_cons, List.cons_append, statementWidth.eq_def,
      statementWidth.eq_def depth (t :: _)]
    dsimp only [Token.opens_bare, Token.closes_bare, Token.endsStatement_bare] at h ⊢
    grind [Short.of_cons]

theorem expressionWidth_exchange {stops : List String}
    (h : Short front tail new (expressionWidth stops depth (front ++ tail) + 1)) :
    expressionWidth stops depth (front.map Token.bare ++ new) =
      expressionWidth stops depth (front ++ tail) := by
  induction front generalizing depth with
  | nil => exact congrArg _ h.eq_of_nil
  | cons t front ih =>
    rw [List.cons_append, expressionWidth.eq_def] at h
    rw [List.cons_append, List.map_cons, List.cons_append, expressionWidth.eq_def,
      expressionWidth.eq_def stops depth (t :: _)]
    dsimp only [Token.opens_bare, Token.closes_bare, Token.endsStatement_bare,
      Token.text_bare] at h ⊢
    grind [Short.of_cons]

/-- The brace that closes a block is the last token that counts. -/
theorem blockWidth_exchange (h : Short front tail new
      ((blockWidth depth (front ++ tail)).getD (front ++ tail).length + 1)) :
    blockWidth depth (front.map Token.bare ++ new) = blockWidth depth (front ++ tail) := by
  induction front generalizing depth with
  | nil => exact congrArg _ h.eq_of_nil
  | cons t front ih =>
    rw [List.cons_append, blockWidth.eq_def] at h
    rw [List.cons_append, List.map_cons, List.cons_append, blockWidth.eq_def,
      blockWidth.eq_def depth (t :: _)]
    dsimp only [Token.opensBlock_bare, Token.closesBlock_bare] at h ⊢
    have hmap (b : Option Nat) (n : Nat) : (b.map (· + 1)).getD (n + 1) = b.getD n + 1 := by
      cases b <;> rfl
    rw [List.length_cons] at h
    grind [Short.of_cons]

/-- How many tokens count for what a declaration looks like ahead. Where a block follows, its brace
is the last of them. -/
def headerReach (found : Nat × Option Nat) : Nat := found.1 + if found.2.isSome then 0 else 1

theorem headerReach_pos (depth : Nat) (ts : List Token) :
    0 < headerReach (headerWidth depth ts) := by
  cases ts with
  | nil => exact Nat.one_pos
  | cons t ts => exact Nat.add_pos_left (Reading.headerWidth_pos depth t ts) _

theorem headerWidth_exchange
    (h : Short front tail new (headerReach (headerWidth depth (front ++ tail)))) :
    headerWidth depth (front.map Token.bare ++ new) = headerWidth depth (front ++ tail) := by
  induction front generalizing depth with
  | nil =>
    exact congrArg _ (h.mono (headerReach_pos depth tail)).eq_of_nil
  | cons t front ih =>
    have hstep (found : Nat × Option Nat) :
        headerReach (found.1 + 1, found.2) = headerReach found + 1 := Nat.add_right_comm ..
    rw [List.cons_append, headerWidth.eq_def] at h
    rw [List.cons_append, List.map_cons, List.cons_append, headerWidth.eq_def,
      headerWidth.eq_def depth (t :: _)]
    dsimp only [Token.opensBlock_bare, Token.is_bare, Token.endsStatement_bare,
      Token.line_bare] at h ⊢
    grind [Short.of_cons]

theorem takeWhile_exchange {test : Token → Bool} (htest : ∀ t : Token, test t.bare = test t)
    (h : Short front tail new (((front ++ tail).takeWhile test).length + 1)) :
    (front.map Token.bare ++ new).takeWhile test =
      ((front ++ tail).takeWhile test).map Token.bare := by
  induction front with
  | nil =>
    obtain ⟨rfl, rfl⟩ := h.resolve_left (Nat.not_succ_le_zero _)
    rfl
  | cons t front ih =>
    rw [List.map_cons, List.cons_append, List.cons_append]
    by_cases hpass : test t = true
    · rw [List.cons_append, List.takeWhile_cons_of_pos hpass, List.length_cons] at h
      rw [List.takeWhile_cons_of_pos hpass, List.takeWhile_cons_of_pos ((htest t).trans hpass),
        ih h.of_cons, List.map_cons]
    · rw [List.takeWhile_cons_of_neg hpass, List.takeWhile_cons_of_neg (htest t ▸ hpass),
        List.map_nil]

end Widths

/-! ### Moves -/

theorem take_swap (h : e.Fits n c) :
    (c.swap e).rest.take n = (c.rest.take n).map Token.bare := by
  obtain ⟨front, tail, hsplit, hswap, hshort | ⟨rfl, htokens⟩⟩ := h.split
  · rw [hsplit, hswap, List.take_append_of_le_length hshort,
      List.take_append_of_le_length (by simpa using hshort), List.map_take]
  · rw [hsplit, hswap, htokens, List.append_nil, List.append_nil, List.map_take]

theorem skipStatement_swap (h : e.Fits 1 c.skipStatement) :
    (c.swap e).skipStatement = c.skipStatement.swap e := by
  have hwidth := h.of_skip
  obtain ⟨front, tail, hsplit, hswap, hshort⟩ := hwidth.split
  rw [hsplit] at hshort
  rw [skipStatement, hswap, statementWidth_exchange hshort, ← hsplit,
    skip_swap (hwidth.mono (Nat.le_succ _)), skipStatement]

theorem expression_swap {stops : List String} (h : e.Fits 1 (c.expression stops).2) :
    (c.swap e).expression stops = ((c.expression stops).1, (c.expression stops).2.swap e) := by
  have hwidth := h.of_skip
  obtain ⟨front, tail, hsplit, hswap, hshort⟩ := hwidth.split
  have hsame : expressionWidth stops 0 (c.swap e).rest = expressionWidth stops 0 c.rest := by
    rw [hsplit] at hshort ⊢
    rw [hswap, expressionWidth_exchange hshort]
  have hfits := hwidth.mono (Nat.le_succ _)
  rw [expression, hsame, take_swap hfits, skip_swap hfits, Token.sourceText_bare]
  rfl

end Cursor

/-! ### Signatures -/

namespace Reader

open Cursor
open Ending (Short)

variable {e : Ending} {c : Cursor}

theorem parameterPieces_exchange {front tail new : List Token} {depth : Nat} {piece : List Token}
    (h : Short front tail new ((parameterPieces depth piece (front ++ tail)).2.1 + 1)) :
    parameterPieces depth (piece.map Token.bare) (front.map Token.bare ++ new) =
      ((parameterPieces depth piece (front ++ tail)).1.map (·.map Token.bare),
        (parameterPieces depth piece (front ++ tail)).2) := by
  induction front generalizing depth piece with
  | nil =>
    obtain ⟨rfl, rfl⟩ := h.resolve_left (Nat.not_succ_le_zero _)
    rfl
  | cons t front ih =>
    rw [List.cons_append, parameterPieces.eq_def] at h
    rw [List.cons_append, List.map_cons, List.cons_append, parameterPieces.eq_def,
      parameterPieces.eq_def depth piece]
    simp only [Token.opens_bare, Token.closes_bare, Token.is_bare] at h ⊢
    have hnext (more : Nat) (q : List Token)
        (hq : Short (t :: front) tail new ((parameterPieces more q (front ++ tail)).2.1 + 1 + 1)) :=
      ih hq.of_cons
    grind [List.map_reverse]

theorem defaultValue_bare (ts : List Token) :
    defaultValue (ts.map Token.bare) = defaultValue ts := by
  match ts with
  | [] | [_] => rfl
  | eq :: first :: rest =>
    rw [List.map_cons, List.map_cons, defaultValue, ← List.map_cons, Token.sourceText_bare]
    rfl

theorem parameter?_bare (doc : Option DocBlock) (types : String) (sofar : Argument)
    (ts : List Token) :
    parameter? doc types sofar (ts.map Token.bare) = parameter? doc types sofar ts := by
  induction ts generalizing types sofar with
  | nil => rfl
  | cons t ts ih =>
    rw [List.map_cons, parameter?, parameter?, defaultValue_bare]
    simp only [ih, List.head?_map, Option.any_map]
    rfl

theorem parameters_swap {doc : Option DocBlock} (h : e.Fits 1 (parameters doc c).after) :
    parameters doc (c.swap e) =
      { parameters doc c with after := (parameters doc c).after.swap e } := by
  have hc : e.Fits 1 c := h.back (leads_parameters doc c)
  rw [parameters] at h
  rw [parameters, parameters, eatPunct_swap hc, line_swap hc]
  cases hparen : c.eatPunct "(" with
  | none => rfl
  | some inner =>
    rw [hparen] at h
    have hwidth : e.Fits ((parameterPieces 0 [] inner.rest).2.1 + 1) inner := h.of_skip
    obtain ⟨front, tail, hsplit, hswap, hshort⟩ := hwidth.split
    have hsame : parameterPieces 0 [] (inner.swap e).rest =
        ((parameterPieces 0 [] inner.rest).1.map (·.map Token.bare),
          (parameterPieces 0 [] inner.rest).2) := by
      rw [hsplit] at hshort ⊢
      exact hswap ▸ parameterPieces_exchange hshort
    have hread (pieces : List (List Token)) :
        (pieces.map (·.map Token.bare)).filterMap (parameter? doc "" { name := "", line := 0 }) =
          pieces.filterMap (parameter? doc "" { name := "", line := 0 }) := by
      rw [List.filterMap_map]
      exact congrArg (pieces.filterMap ·) (funext (parameter?_bare doc "" _))
    dsimp only [Option.map_some]
    rw [hsame, hread, skip_swap (hwidth.mono (Nat.le_succ _))]

theorem returnTypes_swap (h : e.Fits 1 (returnTypes c).2) :
    returnTypes (c.swap e) = ((returnTypes c).1, (returnTypes c).2.swap e) := by
  have hc : e.Fits 1 c := h.back (leads_returnTypes c)
  rw [returnTypes] at h
  rw [returnTypes, returnTypes, eatPunct_swap hc]
  cases hcolon : c.eatPunct ":" with
  | none => rfl
  | some inner =>
    rw [hcolon] at h
    have hwidth := h.of_skip
    obtain ⟨front, tail, hsplit, hswap, hshort⟩ := hwidth.split
    dsimp only [Option.map_some]
    have hsame : (inner.swap e).rest.takeWhile (fun t => !(t.opensBlock || t.endsStatement)) =
        (inner.rest.takeWhile fun t => !(t.opensBlock || t.endsStatement)).map Token.bare := by
      rw [hsplit] at hshort ⊢
      exact hswap ▸ takeWhile_exchange (fun _ => rfl) hshort
    rw [hsame, List.map_map, List.length_map, skip_swap (hwidth.mono (Nat.le_succ _))]
    rfl

end Reader

/-! ### Names and lists -/

def Reading.swap (s : Reading) (e : Ending) : Reading := s.moveTo (s.cursor.swap e)

namespace Reading

open Cursor

variable {e : Ending} {s : Reading} {c : Cursor}

@[simp] theorem cursor_swap (s : Reading) (e : Ending) : (s.swap e).cursor = s.cursor.swap e := rfl

@[simp] theorem pending_swap (s : Reading) (e : Ending) : (s.swap e).pending = s.pending := rfl

@[simp] theorem swap_moveTo (s : Reading) (c : Cursor) (e : Ending) :
    (s.moveTo c).swap e = s.moveTo (c.swap e) := rfl

theorem moveTo_swap (s : Reading) (c : Cursor) (e : Ending) :
    (s.swap e).moveTo (c.swap e) = (s.moveTo c).swap e := rfl

theorem report_swap (s : Reading) (e : Ending) (line : Nat) (message : String) :
    (s.swap e).report line message = (s.report line message).swap e := rfl

theorem qualify_swap (s : Reading) (e : Ending) : (s.swap e).qualify = s.qualify := by
  funext name
  have hspace : (s.swap e).space = s.space := rfl
  have haliases : (s.swap e).file.aliases = s.file.aliases := rfl
  exact qualify_congr hspace haliases name

theorem swap_step (h : e.Fits 1 s.cursor) : (s.swap e).step = s.step.swap e :=
  congrArg s.moveTo (step_swap h)

theorem lt_fuel (c : Cursor) : c.rest.length < c.fuel := Nat.lt_succ_self _

/-- A bound on the rounds of a loop that suffices at two places. -/
theorem exists_fuel (c d : Cursor) : ∃ fuel, c.rest.length < fuel ∧ d.rest.length < fuel :=
  ⟨c.rest.length + d.rest.length + 1, by omega, by omega⟩

theorem nameList_swap {fuel : Nat} (h : e.Fits 1 (nameList fuel c).2) :
    nameList fuel (c.swap e) =
      ((nameList fuel c).1.map Token.bare, (nameList fuel c).2.swap e) := by
  induction fuel generalizing c with
  | zero => rfl
  | succ fuel ih =>
    have hc : e.Fits 1 c := h.back (leads_nameList (fuel + 1) c)
    rw [nameList] at h
    rw [nameList, nameList, name?_swap hc]
    cases hname : c.name? with
    | none => rfl
    | some found =>
      obtain ⟨name, d⟩ := found
      rw [hname] at h
      dsimp only [Option.map_some] at h ⊢
      cases hcomma : d.eatPunct "," with
      | none =>
        rw [hcomma] at h
        rw [eatPunct_swap h, hcomma]
        rfl
      | some f =>
        rw [hcomma] at h
        have hd : e.Fits 1 d := h.back ((leads_eat hcomma).trans (leads_nameList fuel f))
        rw [eatPunct_swap hd, hcomma]
        dsimp only [Option.map_some]
        rw [ih h]
        rfl

theorem references_swap (h : e.Fits 1 s.references.2.cursor) :
    (s.swap e).references = (s.references.1, s.references.2.swap e) := by
  obtain ⟨fuel, hold, hnew⟩ := exists_fuel s.cursor (s.cursor.swap e)
  have hfuel : nameList s.cursor.fuel s.cursor = nameList fuel s.cursor :=
    nameList_congr (lt_fuel _) hold
  have hfuel' : nameList (s.cursor.swap e).fuel (s.cursor.swap e) =
      nameList fuel (s.cursor.swap e) := nameList_congr (lt_fuel _) hnew
  rw [references, hfuel] at h
  rw [references, references, cursor_swap, hfuel, hfuel', nameList_swap h, qualify_swap]
  dsimp only
  rw [List.map_map]
  rfl

theorem constantList_swap {fuel : Nat} (h : e.Fits 1 (constantList fuel c).2) :
    constantList fuel (c.swap e) =
      ((constantList fuel c).1.map fun p => (p.1.bare, p.2), (constantList fuel c).2.swap e) := by
  induction fuel generalizing c with
  | zero => rfl
  | succ fuel ih =>
    have hafter := h.back (skip_leads_constantList fuel c)
    have hwidth := hafter.of_skip
    obtain ⟨front, tail, hsplit, hswap, hshort⟩ := hwidth.split
    have hnames : (c.swap e).rest.takeWhile (fun t => t.kind == .name) =
        (c.rest.takeWhile fun t => t.kind == .name).map Token.bare := by
      rw [hsplit] at hshort ⊢
      exact hswap ▸ takeWhile_exchange (fun _ => rfl) hshort
    rw [constantList] at h
    rw [constantList, constantList]
    dsimp only at h ⊢
    rw [hnames, List.length_map, skip_swap (hwidth.mono (Nat.le_succ _)), List.getLast?_map,
      eatPunct_swap hafter]
    cases hlast : (c.rest.takeWhile fun t => t.kind == .name).getLast? with
    | none => rfl
    | some name =>
      cases hsign : (c.skip (c.rest.takeWhile fun t => t.kind == .name).length).eatPunct "=" with
      | none => rfl
      | some sign =>
        rw [hlast, hsign] at h
        dsimp only [Option.map_some] at h ⊢
        cases hcomma : (sign.expression [","]).2.eatPunct "," with
        | none =>
          rw [hcomma] at h
          rw [expression_swap h]
          dsimp only
          rw [eatPunct_swap h, hcomma]
          rfl
        | some d =>
          rw [hcomma] at h
          have hvalue : e.Fits 1 (sign.expression [","]).2 :=
            h.back ((leads_eat hcomma).trans (leads_constantList fuel d))
          rw [expression_swap hvalue]
          dsimp only
          rw [eatPunct_swap hvalue, hcomma]
          dsimp only [Option.map_some]
          rw [ih h]
          rfl

/-- The place behind the constants of a statement that can be read. -/
def behindConstants (s : Reading) : Cursor := (constantList s.cursor.fuel s.cursor).2

theorem constantList_fuel_swap (h : e.Fits 1 s.behindConstants) :
    constantList (s.cursor.swap e).fuel (s.cursor.swap e) =
      ((constantList s.cursor.fuel s.cursor).1.map fun p => (p.1.bare, p.2),
        s.behindConstants.swap e) := by
  obtain ⟨fuel, hold, hnew⟩ := exists_fuel s.cursor (s.cursor.swap e)
  rw [behindConstants, constantList_congr (lt_fuel _) hold] at h
  rw [behindConstants, constantList_congr (lt_fuel _) hold, constantList_congr (lt_fuel _) hnew,
    constantList_swap h]

theorem constants_swap (h : e.Fits 1 s.constants.2.cursor) :
    (s.swap e).constants =
      (s.constants.1.map fun p => (p.1.bare, p.2), s.constants.2.swap e) := by
  have hend : e.Fits 1 s.behindConstants.skipStatement := h
  rw [constants, cursor_swap, constantList_fuel_swap (hend.back (leads_skipStatement _))]
  dsimp only
  rw [skipStatement_swap hend]
  rfl

theorem parentAt_swap (h : e.Fits 1 (s.parentAt c).2) :
    (s.swap e).parentAt (c.swap e) = ((s.parentAt c).1, (s.parentAt c).2.swap e) := by
  have hc : e.Fits 1 c := h.back (leads_parentAt s c)
  rw [parentAt] at h
  rw [parentAt, parentAt, eatKeyword_swap hc]
  cases hword : c.eatKeyword "extends" with
  | none => rfl
  | some d =>
    have hd : e.Fits 1 d := by
      rw [hword] at h
      refine h.back ?_
      dsimp only
      split
      · next hname => exact leads_name? hname
      · exact .refl d
    dsimp only [Option.map_some]
    rw [name?_swap hd, qualify_swap]
    cases d.name? <;> rfl

theorem listBehind_swap {keyword : String} (h : e.Fits 1 (s.listBehind keyword).2.cursor) :
    (s.swap e).listBehind keyword =
      ((s.listBehind keyword).1, (s.listBehind keyword).2.swap e) := by
  have hs : e.Fits 1 s.cursor := h.back (moves_listBehind s keyword).leads
  rw [listBehind] at h
  rw [listBehind, listBehind, cursor_swap, eatKeyword_swap hs]
  cases hword : s.cursor.eatKeyword keyword with
  | none => rfl
  | some c =>
    rw [hword] at h
    dsimp only [Option.map_some] at h ⊢
    rw [moveTo_swap, references_swap h]

theorem importAt_swap {target : String} (h : e.Fits 1 (importAt target c).2) :
    importAt target (c.swap e) = ((importAt target c).1, (importAt target c).2.swap e) := by
  have hc : e.Fits 1 c := h.back (leads_importAt target c)
  rw [importAt] at h
  rw [importAt, importAt, eatKeyword_swap hc]
  cases hword : c.eatKeyword "as" with
  | none => rfl
  | some d =>
    have hd : e.Fits 1 d := by
      rw [hword] at h
      refine h.back ?_
      dsimp only
      split
      · next hname => exact leads_name? hname
      · exact .refl d
    dsimp only [Option.map_some]
    rw [name?_swap hd]
    cases d.name? <;> rfl

theorem importGroup_swap {start : List Char} {fuel : Nat}
    (h : e.Fits 1 (importGroup start fuel c).2) :
    importGroup start fuel (c.swap e) =
      ((importGroup start fuel c).1, (importGroup start fuel c).2.swap e) := by
  induction fuel generalizing c with
  | zero => rfl
  | succ fuel ih =>
    have hc : e.Fits 1 c := h.back (leads_importGroup start (fuel + 1) c)
    rw [importGroup] at h
    rw [importGroup, importGroup, name?_swap hc]
    cases hname : c.name? with
    | none => rfl
    | some found =>
      obtain ⟨t, d⟩ := found
      rw [hname] at h
      dsimp only [Option.map_some, Token.text_bare] at h ⊢
      generalize String.ofList (start ++ Fqsen.separator :: t.text.toList) = target at h ⊢
      cases hcomma : (importAt target d).2.eatPunct "," with
      | none =>
        rw [hcomma] at h
        rw [importAt_swap h]
        dsimp only
        rw [eatPunct_swap h, hcomma]
        rfl
      | some f =>
        rw [hcomma] at h
        have hitem : e.Fits 1 (importAt target d).2 :=
          h.back ((leads_eat hcomma).trans (leads_importGroup start fuel f))
        rw [importAt_swap hitem]
        dsimp only
        rw [eatPunct_swap hitem, hcomma]
        dsimp only [Option.map_some]
        rw [ih h]

theorem importName_swap {t : Token} (h : e.Fits 1 (importName t c).2) :
    importName t.bare (c.swap e) = ((importName t c).1, (importName t c).2.swap e) := by
  have hc : e.Fits 1 c := h.back (leads_importName t c)
  rw [importName] at h
  rw [importName, importName, eat_swap (fun _ => rfl) hc]
  cases hopen : c.eat Token.opensBlock with
  | none =>
    rw [hopen] at h
    exact congrArg (fun found => ([found.1], found.2)) (importAt_swap h)
  | some d =>
    rw [hopen] at h
    dsimp only [Option.map_some, Token.text_bare] at h ⊢
    obtain ⟨fuel, hold, hnew⟩ := exists_fuel d (d.swap e)
    rw [importGroup_congr (lt_fuel d) hold] at h ⊢
    have hgroup : e.Fits 1 _ := h.back (leads_eat_getD _ _)
    rw [importGroup_congr (lt_fuel (d.swap e)) hnew, importGroup_swap hgroup]
    dsimp only
    rw [eat_getD_swap (fun _ => rfl) hgroup]

theorem importList_swap {fuel : Nat} (h : e.Fits 1 (importList fuel c).2) :
    importList fuel (c.swap e) = ((importList fuel c).1, (importList fuel c).2.swap e) := by
  induction fuel generalizing c with
  | zero => rfl
  | succ fuel ih =>
    have hc : e.Fits 1 c := h.back (leads_importList (fuel + 1) c)
    rw [importList] at h
    rw [importList, importList, name?_swap hc]
    cases hname : c.name? with
    | none => rfl
    | some found =>
      obtain ⟨t, d⟩ := found
      rw [hname] at h
      dsimp only [Option.map_some] at h ⊢
      cases hcomma : (importName t d).2.eatPunct "," with
      | none =>
        rw [hcomma] at h
        rw [importName_swap h]
        dsimp only
        rw [eatPunct_swap h, hcomma]
        rfl
      | some f =>
        rw [hcomma] at h
        have hitem : e.Fits 1 (importName t d).2 :=
          h.back ((leads_eat hcomma).trans (leads_importList fuel f))
        rw [importName_swap hitem]
        dsimp only
        rw [eatPunct_swap hitem, hcomma]
        dsimp only [Option.map_some]
        rw [ih h]

/-! ### Blocks -/

theorem skipBlock_swap {line : Nat} (h : e.Fits 1 (s.skipBlock line).cursor) :
    (s.swap e).skipBlock line = (s.skipBlock line).swap e := by
  have hwidth : e.Fits ((blockWidth 0 s.cursor.rest).getD s.cursor.rest.length + 1) s.cursor := by
    rw [skipBlock] at h
    split at h
    · next n hn => exact hn ▸ h.of_skip
    · next hn => exact hn ▸ h.of_skip
  obtain ⟨front, tail, hsplit, hswap, hshort⟩ := hwidth.split
  have hsame : blockWidth 0 (s.cursor.swap e).rest = blockWidth 0 s.cursor.rest := by
    rw [hsplit] at hshort ⊢
    exact hswap ▸ blockWidth_exchange hshort
  rw [skipBlock, skipBlock, cursor_swap, hsame]
  cases hblock : blockWidth 0 s.cursor.rest with
  | some n =>
    rw [hblock, Option.getD_some] at hwidth
    dsimp only
    rw [skip_swap (hwidth.mono (Nat.le_succ _))]
    rfl
  | none =>
    rw [hblock] at hwidth
    obtain rfl := hwidth.eq_none
    dsimp only
    have hlength : (s.cursor.swap .none).rest.length = s.cursor.rest.length := by
      simp
    rw [hlength, skip_swap (.none _ _)]
    rfl

theorem skipBody_swap (h : e.Fits 1 s.skipBody.cursor) :
    (s.swap e).skipBody = s.skipBody.swap e := by
  have hs : e.Fits 1 s.cursor := h.back (moves_skipBody s).leads
  rw [skipBody] at h
  rw [skipBody, skipBody, cursor_swap, eat_swap (fun _ => rfl) hs]
  cases hopen : s.cursor.eat Token.opensBlock with
  | none =>
    dsimp only [Option.map_none]
    rw [dropEnd_swap hs]
    rfl
  | some inner =>
    rw [hopen] at h
    dsimp only [Option.map_some] at h ⊢
    rw [line_swap hs, moveTo_swap, skipBlock_swap h]

theorem signature_swap {doc : Option DocBlock} (h : e.Fits 1 (s.signature doc).2.2.cursor) :
    (s.swap e).signature doc =
      ((s.signature doc).1, (s.signature doc).2.1, (s.signature doc).2.2.swap e) := by
  rw [signature] at h
  dsimp only at h
  have htypes : e.Fits 1 (Reader.returnTypes (Reader.parameters doc s.cursor).after).2 :=
    h.back (moves_skipBody _).leads
  have hlist := htypes.back (Reader.leads_returnTypes _)
  rw [signature, signature, cursor_swap, Reader.parameters_swap hlist]
  dsimp only
  rw [Reader.returnTypes_swap htypes]
  dsimp only
  cases hclosed : (Reader.parameters doc s.cursor).unclosed with
  | none =>
    rw [hclosed] at h
    dsimp only at h ⊢
    rw [moveTo_swap, skipBody_swap h]
  | some line =>
    rw [hclosed] at h
    dsimp only at h ⊢
    rw [report_swap, moveTo_swap, skipBody_swap h]

theorem skipDeclaration_swap (h : e.Fits 1 s.skipDeclaration.cursor) :
    (s.swap e).skipDeclaration = s.skipDeclaration.swap e := by
  rw [skipDeclaration] at h
  dsimp only at h
  have hwidth : e.Fits (headerReach (headerWidth 0 s.cursor.rest)) s.cursor := by
    revert h
    generalize headerWidth 0 s.cursor.rest = found
    intro h
    obtain ⟨n, _ | line⟩ := found
    · exact h.of_skip
    · have hblock := (moves_skipBlock (s.moveTo (s.cursor.skip n)) line).leads
      exact (h.back hblock).of_skip.mono (Nat.le_succ _)
  obtain ⟨front, tail, hsplit, hswap, hshort⟩ := hwidth.split
  have hsame : headerWidth 0 (s.cursor.swap e).rest = headerWidth 0 s.cursor.rest := by
    rw [hsplit] at hshort ⊢
    exact hswap ▸ headerWidth_exchange hshort
  have hn := skip_swap (hwidth.mono (Nat.le_add_right (headerWidth 0 s.cursor.rest).1 _))
  rw [skipDeclaration, skipDeclaration, cursor_swap, hsame]
  dsimp only
  rw [hn, moveTo_swap]
  cases hblock : (headerWidth 0 s.cursor.rest).2 with
  | none => rfl
  | some line =>
    rw [hblock] at h
    exact skipBlock_swap h

end Reading

end ApiDoc
