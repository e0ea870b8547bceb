import ApiDoc.Token

/-!
# A place in a list of tokens

A `Cursor` stands before a token and knows the one behind it. It only moves forward, one token at a
time (`Cursor.step`) or by a width computed from the tokens ahead (`Cursor.skip`). The widths of
what a reader passes over as a whole are here: the rest of a block, the rest of a statement, an
expression.
-/

namespace ApiDoc

/-- A place between tokens: the token behind it and the tokens ahead. -/
structure Cursor where
  previous : Option Token := none
  rest : List Token
deriving DecidableEq, Inhabited

namespace Cursor

def peek (c : Cursor) : Option Token := c.rest.head?

/-- The token some places ahead of the next. -/
def peekAt (c : Cursor) (n : Nat) : Option Token := c.rest[n]?

/-- The line of the next token, or the first line at the end. -/
def line (c : Cursor) : Nat := (c.peek.map Token.line).getD 1

def step (c : Cursor) : Cursor :=
  match c.rest with
  | [] => c
  | t :: ts => ⟨some t, ts⟩

def skip (c : Cursor) : Nat → Cursor
  | 0 => c
  | n + 1 => c.step.skip n

/-- Whether the next token passes a test. -/
def next (c : Cursor) (test : Token → Bool) : Bool := c.peek.any test

/-- Passes over a token with a test, if it is next. -/
def eat (c : Cursor) (test : Token → Bool) : Option Cursor :=
  if c.next test then some c.step else none

def eatPunct (c : Cursor) (punct : String) : Option Cursor := c.eat (·.is punct)

def eatKeyword (c : Cursor) (keyword : String) : Option Cursor := c.eat (·.isKeyword keyword)

def dropEnd (c : Cursor) : Cursor := (c.eat Token.endsStatement).getD c

/-- Passes over a token of a kind, if it is next, and gives it. -/
def take? (c : Cursor) (kind : TokenKind) : Option (Token × Cursor) :=
  match c.rest with
  | [] => none
  | t :: _ => if t.kind = kind then some (t, c.step) else none

def name? (c : Cursor) : Option (Token × Cursor) := c.take? .name

/-- The number of tokens ahead, and one more: enough steps for any loop that passes over a token in
each of its rounds. -/
def fuel (c : Cursor) : Nat := c.rest.length + 1

/-! ### Widths -/

/-- How many tokens there are up to the brace that closes a block, when `depth` blocks are open
inside it. -/
def blockWidth (depth : Nat) : List Token → Option Nat
  | [] => none
  | t :: ts =>
    if t.opensBlock then (blockWidth (depth + 1) ts).map (· + 1)
    else if t.closesBlock then
      match depth with
      | 0 => some 1
      | outer + 1 => (blockWidth outer ts).map (· + 1)
    else (blockWidth depth ts).map (· + 1)

/-- How many tokens the rest of a statement has, its end included. A bracket that closes none opened
within it ends the statement and is not part of it. -/
def statementWidth (depth : Nat) : List Token → Nat
  | [] => 0
  | t :: ts =>
    if t.opens then statementWidth (depth + 1) ts + 1
    else if t.closes then
      match depth with
      | 0 => 0
      | outer + 1 => statementWidth outer ts + 1
    else if depth = 0 && t.endsStatement then 1
    else statementWidth depth ts + 1

/-- How many tokens an expression has. It ends before the end of the statement, before one of the
stops, and before a bracket that closes none opened within it. -/
def expressionWidth (stops : List String) (depth : Nat) : List Token → Nat
  | [] => 0
  | t :: ts =>
    if t.opens then expressionWidth stops (depth + 1) ts + 1
    else if t.closes then
      match depth with
      | 0 => 0
      | outer + 1 => expressionWidth stops outer ts + 1
    else if depth = 0 && (t.endsStatement || stops.contains t.text) then 0
    else expressionWidth stops depth ts + 1

/-- What a declaration that is passed over looks like ahead: how many tokens lead to its block or to
its end, and the line of the brace that opens the block. -/
def headerWidth (depth : Nat) : List Token → Nat × Option Nat
  | [] => (0, none)
  | t :: ts =>
    let further (depth : Nat) :=
      let (n, line) := headerWidth depth ts
      (n + 1, line)
    if t.is "(" then further (depth + 1)
    else if t.is ")" then further (depth - 1)
    else if depth = 0 && t.opensBlock then (1, some t.line)
    else if depth = 0 && t.endsStatement then (1, none)
    else further depth

/-! ### Moves -/

def skipStatement (c : Cursor) : Cursor := c.skip (statementWidth 0 c.rest)

/-- Passes over an expression and gives its source text. -/
def expression (c : Cursor) (stops : List String) : String × Cursor :=
  let n := expressionWidth stops 0 c.rest
  (String.ofList (Text.trim (Token.sourceText (c.rest.take n))), c.skip n)

@[simp] theorem skip_zero (c : Cursor) : c.skip 0 = c := rfl

/-- Skipping drops tokens from the front. -/
theorem rest_skip (c : Cursor) (n : Nat) : (c.skip n).rest = c.rest.drop n := by
  induction n generalizing c with
  | zero => simp
  | succ n ih =>
    rw [skip, ih, step]
    split <;> simp_all

end Cursor

end ApiDoc
