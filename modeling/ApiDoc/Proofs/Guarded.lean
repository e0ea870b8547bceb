import ApiDoc.Proofs.Progress
import ApiDoc.Proofs.Slices

/-!
# Reading with guards

The parts of declarations are read here once more, with guards. A counter of open brackets is
lowered only if it is above zero, a place moves on only if there is a token, parts of the source and
of the list of tokens are cut out between two positions, which have to be in order and not behind
the end, and a loop has to be done within a number of rounds. A routine has no result where a guard
fails, so a result says that none did.

What passes over a token only after a look at it needs no guard (`Cursor.eat`, `Cursor.take?`). Each
routine is followed by the proof that it has a result, which is the one without guards: it is enough
that the tokens spell out the source, that the place is among them, and that loops may take one
round for each token and one more.
-/

namespace ApiDoc.Guarded

open Cursor

/-- What is read, and how many rounds a loop may take. -/
structure Limits where
  source : String
  tokens : List Token
  rounds : Nat

/-- Limits that are never reached. -/
structure Limits.Suffice (lim : Limits) : Prop where
  spells : Token.Spells lim.source lim.tokens
  rounds : lim.tokens.length < lim.rounds

variable {lim : Limits}

theorem Limits.Suffice.length_lt (h : lim.Suffice) {c : Cursor} (hc : c.rest <:+ lim.tokens) :
    c.rest.length < lim.rounds :=
  Nat.lt_of_le_of_lt hc.length_le h.rounds

/-- A counter that is lowered by one. It cannot go below zero. -/
def lower : Nat → Option Nat
  | 0 => none
  | n + 1 => some n

/-- The place after the next token. There has to be one. -/
def advance (c : Cursor) : Option Cursor :=
  match c.rest with
  | [] => none
  | t :: ts => some ⟨some t, ts⟩

@[simp] theorem lower_succ (n : Nat) : lower (n + 1) = some n := rfl

@[simp] theorem advance_cons (previous : Option Token) (t : Token) (ts : List Token) :
    advance ⟨previous, t :: ts⟩ = some ⟨some t, ts⟩ := rfl

theorem advance_of_peek {c : Cursor} {t : Token} (h : c.peek = some t) :
    advance c = some c.step := by
  obtain ⟨previous, rest⟩ := c
  cases rest with
  | nil => cases h
  | cons u rest => rfl

/-! ### Widths -/

/-- Goes to the brace that closes the outermost of the open blocks. -/
def blockEnd : Nat → Nat → Cursor → Option (Bool × Cursor)
  | 0, _, _ => none
  | n + 1, depth, c =>
    match c.peek with
    | none => some (false, c)
    | some t => do
      let c ← advance c
      if t.opensBlock then blockEnd n (depth + 1) c
      else if t.closesBlock then
        let depth ← lower depth
        if depth = 0 then some (true, c) else blockEnd n depth c
      else blockEnd n depth c

theorem blockEnd_eq {n : Nat} {c : Cursor} (hn : c.rest.length < n) (depth : Nat) :
    blockEnd n (depth + 1) c = some (match blockWidth depth c.rest with
      | some n => (true, c.skip n)
      | none => (false, c.skip c.rest.length)) := by
  induction n generalizing c depth with
  | zero => exact absurd hn (Nat.not_lt_zero _)
  | succ n ih =>
    obtain ⟨previous, rest⟩ := c
    cases rest with
    | nil => rfl
    | cons t rest =>
      have hmore (depth : Nat) : blockEnd n (depth + 1) ⟨some t, rest⟩ =
          some (match (blockWidth depth rest).map (· + 1) with
            | some n => (true, Cursor.skip ⟨previous, t :: rest⟩ n)
            | none => (false, Cursor.skip ⟨previous, t :: rest⟩ (t :: rest).length)) := by
        rw [ih (Nat.lt_of_succ_lt_succ hn)]
        cases blockWidth depth rest <;> rfl
      rw [blockEnd, blockWidth.eq_def]
      simp only [peek, List.head?_cons, advance_cons, lower_succ, Option.bind_eq_bind,
        Option.bind_some]
      split
      · exact hmore _
      · split
        · cases depth with
          | zero => rfl
          | succ outer => exact hmore outer
        · exact hmore _

def statementEnd : Nat → Nat → Cursor → Option Cursor
  | 0, _, _ => none
  | n + 1, depth, c =>
    match c.peek with
    | none => some c
    | some t =>
      if t.opens then do statementEnd n (depth + 1) (← advance c)
      else if t.closes then
        if depth = 0 then some c else do statementEnd n (← lower depth) (← advance c)
      else if depth = 0 && t.endsStatement then advance c
      else do statementEnd n depth (← advance c)

theorem statementEnd_eq {n : Nat} {c : Cursor} (hn : c.rest.length < n) (depth : Nat) :
    statementEnd n depth c = some (c.skip (statementWidth depth c.rest)) := by
  induction n generalizing c depth with
  | zero => exact absurd hn (Nat.not_lt_zero _)
  | succ n ih =>
    obtain ⟨previous, rest⟩ := c
    cases rest with
    | nil => rfl
    | cons t rest =>
      have hmore := ih (c := ⟨some t, rest⟩) (Nat.lt_of_succ_lt_succ hn)
      rw [statementEnd, statementWidth.eq_def]
      simp only [peek, List.head?_cons, advance_cons, Option.bind_eq_bind, Option.bind_some]
      split
      · exact hmore _
      · split
        · cases depth with
          | zero => rfl
          | succ outer => exact hmore outer
        · split
          · rfl
          · exact hmore _

/-- Goes behind the end of a declaration that is passed over, or behind the brace that opens its
block, and gives the line of that brace. A closing parenthesis too many counts for nothing. -/
def headerEnd : Nat → Nat → Cursor → Option (Option Nat × Cursor)
  | 0, _, _ => none
  | n + 1, depth, c =>
    match c.peek with
    | none => some (none, c)
    | some t => do
      let c ← advance c
      if t.is "(" then headerEnd n (depth + 1) c
      else if t.is ")" then headerEnd n (depth - 1) c
      else if depth = 0 && t.opensBlock then some (some t.line, c)
      else if depth = 0 && t.endsStatement then some (none, c)
      else headerEnd n depth c

theorem headerEnd_eq {n : Nat} {c : Cursor} (hn : c.rest.length < n) (depth : Nat) :
    headerEnd n depth c =
      some ((headerWidth depth c.rest).2, c.skip (headerWidth depth c.rest).1) := by
  induction n generalizing c depth with
  | zero => exact absurd hn (Nat.not_lt_zero _)
  | succ n ih =>
    obtain ⟨previous, rest⟩ := c
    cases rest with
    | nil => rfl
    | cons t rest =>
      have hmore := ih (c := ⟨some t, rest⟩) (Nat.lt_of_succ_lt_succ hn)
      rw [headerEnd, headerWidth.eq_def]
      simp only [peek, List.head?_cons, advance_cons, Option.bind_eq_bind, Option.bind_some]
      split
      · exact hmore _
      · split
        · exact hmore _
        · split
          · rfl
          · split
            · rfl
            · exact hmore _

/-- Goes to the end of an expression, and gives the byte position of its end. -/
def expressionEnd (stops : List String) : Nat → Nat → Nat → Cursor → Option (Nat × Cursor)
  | 0, _, _, _ => none
  | n + 1, depth, stop, c =>
    match c.peek with
    | none => some (stop, c)
    | some t =>
      if t.opens then do expressionEnd stops n (depth + 1) t.stop (← advance c)
      else if t.closes then
        if depth = 0 then some (stop, c)
        else do expressionEnd stops n (← lower depth) t.stop (← advance c)
      else if depth = 0 && (t.endsStatement || stops.contains t.text) then some (stop, c)
      else do expressionEnd stops n depth t.stop (← advance c)

theorem expressionEnd_eq (stops : List String) {n : Nat} {c : Cursor} (hn : c.rest.length < n)
    (depth stop : Nat) : expressionEnd stops n depth stop c =
      some (((c.rest.take (expressionWidth stops depth c.rest)).getLast?.map Token.stop).getD stop,
        c.skip (expressionWidth stops depth c.rest)) := by
  induction n generalizing c depth stop with
  | zero => exact absurd hn (Nat.not_lt_zero _)
  | succ n ih =>
    obtain ⟨previous, rest⟩ := c
    cases rest with
    | nil => rfl
    | cons t rest =>
      have hmore (depth : Nat) : expressionEnd stops n depth t.stop ⟨some t, rest⟩ =
          some ((((t :: rest).take (expressionWidth stops depth rest + 1)).getLast?.map
            Token.stop).getD stop,
          Cursor.skip ⟨previous, t :: rest⟩ (expressionWidth stops depth rest + 1)) := by
        rw [ih (Nat.lt_of_succ_lt_succ hn), List.take_succ_cons, List.getLast?_cons]
        cases (List.take (expressionWidth stops depth rest) rest).getLast? <;> rfl
      rw [expressionEnd, expressionWidth.eq_def]
      simp only [peek, List.head?_cons, advance_cons, Option.bind_eq_bind, Option.bind_some]
      split
      · exact hmore _
      · split
        · cases depth with
          | zero => rfl
          | succ outer => exact hmore outer
        · split
          · rfl
          · exact hmore _

def expression (lim : Limits) (c : Cursor) (stops : List String) : Option (String × Cursor) :=
  match c.peek with
  | none => some ("", c)
  | some first => do
    let (stop, after) ← expressionEnd stops lim.rounds 0 first.start c
    let text ← Text.slice? lim.source first.start stop
    some (String.ofList (Text.trim text.toList), after)

theorem expression_eq (h : lim.Suffice) {c : Cursor} (hc : c.rest <:+ lim.tokens)
    (stops : List String) : expression lim c stops = some (c.expression stops) := by
  obtain ⟨previous, rest⟩ := c
  cases rest with
  | nil => rfl
  | cons first rest =>
    rw [expression, Cursor.expression]
    simp only [peek, List.head?_cons, expressionEnd_eq stops (h.length_lt hc),
      Option.bind_eq_bind, Option.bind_some]
    cases expressionWidth stops 0 (first :: rest) with
    | zero =>
      have hfirst : first ∈ lim.tokens := hc.subset List.mem_cons_self
      rw [List.take_zero, List.getLast?_nil, Option.map_none, Option.getD_none,
        h.spells.slice?_start hfirst]
      rfl
    | succ n =>
      have hrow : first :: rest.take n <:+: lim.tokens :=
        ((List.take_prefix (n + 1) (first :: rest)).isInfix).trans hc.isInfix
      obtain ⟨last, hlast⟩ : ∃ last, (first :: rest.take n).getLast? = some last :=
        ⟨_, List.getLast?_cons⟩
      rw [List.take_succ_cons, hlast, Option.map_some, Option.getD_some,
        h.spells.slice?_row hrow hlast, Option.bind_some, String.toList_ofList]

/-! ### Lists -/

def nameList : Nat → Cursor → Option (List Token × Cursor)
  | 0, _ => none
  | n + 1, c =>
    match c.name? with
    | none => some ([], c)
    | some (name, c) =>
      match c.eatPunct "," with
      | none => some ([name], c)
      | some c => do
        let (names, c) ← nameList n c
        some (name :: names, c)

theorem nameList_eq {n : Nat} {c : Cursor} (hn : c.rest.length < n) :
    nameList n c = some (Reading.nameList n c) := by
  induction n generalizing c with
  | zero => exact absurd hn (Nat.not_lt_zero _)
  | succ n ih =>
    rw [nameList, Reading.nameList]
    cases hname : c.name? with
    | none => rfl
    | some found =>
      obtain ⟨name, d⟩ := found
      have hd := length_take?_lt hname
      cases hcomma : d.eatPunct "," with
      | none => simp only [hcomma]
      | some e =>
        have he := length_eat_lt hcomma
        simp only [hcomma, ih (c := e) (by omega)]
        rfl

def references (lim : Limits) (s : Reading) : Option (List Reference × Reading) := do
  let (names, c) ← nameList lim.rounds s.cursor
  some (names.map fun t => { target := s.qualify t.text }, s.moveTo c)

theorem references_eq (h : lim.Suffice) {s : Reading} (hs : s.cursor.rest <:+ lim.tokens) :
    references lim s = some s.references := by
  have hrounds := h.length_lt hs
  rw [references, nameList_eq hrounds,
    Reading.nameList_congr hrounds (Nat.lt_succ_self s.cursor.rest.length)]
  rfl

/-- Passes over names and keeps the last one. -/
def lastName : Nat → Option Token → Cursor → Option (Option Token × Cursor)
  | 0, _, _ => none
  | n + 1, last, c =>
    match c.name? with
    | none => some (last, c)
    | some (name, c) => lastName n (some name) c

theorem lastName_eq {n : Nat} {c : Cursor} (hn : c.rest.length < n) (last : Option Token) :
    lastName n last c = some ((c.rest.takeWhile fun t => t.kind == .name).getLast?.or last,
      c.skip (c.rest.takeWhile fun t => t.kind == .name).length) := by
  induction n generalizing c last with
  | zero => exact absurd hn (Nat.not_lt_zero _)
  | succ n ih =>
    obtain ⟨previous, rest⟩ := c
    cases rest with
    | nil => rfl
    | cons t rest =>
      rw [lastName, name?, take?]
      by_cases hname : t.kind = .name
      · simp only [if_pos hname, step, ih (c := ⟨some t, rest⟩) (Nat.lt_of_succ_lt_succ hn),
          List.takeWhile_cons, beq_iff_eq.mpr hname, if_true, List.getLast?_cons, List.length_cons]
        cases (rest.takeWhile fun t => t.kind == .name).getLast? <;> rfl
      · simp only [if_neg hname, List.takeWhile_cons, beq_eq_false_iff_ne.mpr hname]
        rfl

def constantList (lim : Limits) : Nat → Cursor → Option (List (Token × String) × Cursor)
  | 0, _ => none
  | n + 1, c => do
    let (name, afterNames) ← lastName lim.rounds none c
    match name, afterNames.eatPunct "=" with
    | some name, some afterSign =>
      let (value, afterValue) ← expression lim afterSign [","]
      match afterValue.eatPunct "," with
      | none => some ([(name, value)], afterValue)
      | some c =>
        let (constants, c) ← constantList lim n c
        some ((name, value) :: constants, c)
    | _, _ => some ([], afterNames)

theorem constantList_eq (h : lim.Suffice) {n : Nat} {c : Cursor} (hc : c.rest <:+ lim.tokens)
    (hn : c.rest.length < n) : constantList lim n c = some (Reading.constantList n c) := by
  induction n generalizing c with
  | zero => exact absurd hn (Nat.not_lt_zero _)
  | succ n ih =>
    have hnames := c.leads_skip (c.rest.takeWhile fun t => t.kind == .name).length
    rw [constantList, Reading.constantList, lastName_eq (h.length_lt hc), Option.or_none]
    dsimp only [Option.bind_eq_bind, Option.bind_some]
    cases (c.rest.takeWhile fun t => t.kind == .name).getLast? with
    | none => rfl
    | some name =>
      cases hsign : (c.skip (c.rest.takeWhile fun t => t.kind == .name).length).eatPunct "=" with
      | none => rfl
      | some sign =>
        have hvalue := hnames.trans (leads_eat hsign)
        have hafter := hvalue.trans (sign.leads_expression [","])
        dsimp only
        rw [expression_eq h (hvalue.suffix.trans hc), Option.bind_some]
        cases hcomma : (sign.expression [","]).2.eatPunct "," with
        | none => rfl
        | some d =>
          have hle := hafter.length_le
          have hd := length_eat_lt hcomma
          have hmore := ih ((hafter.trans (leads_eat hcomma)).suffix.trans hc) (by omega)
          dsimp only
          rw [hmore]
          rfl

def constants (lim : Limits) (s : Reading) : Option (List (Token × String) × Reading) := do
  let (constants, c) ← constantList lim lim.rounds s.cursor
  some (constants, s.moveTo (← statementEnd lim.rounds 0 c))

theorem constants_eq (h : lim.Suffice) {s : Reading} (hs : s.cursor.rest <:+ lim.tokens) :
    constants lim s = some s.constants := by
  have hrounds := h.length_lt hs
  have hafter := (Reading.leads_constantList s.cursor.fuel s.cursor).suffix.trans hs
  have hsame : Reading.constantList lim.rounds s.cursor =
      Reading.constantList s.cursor.fuel s.cursor :=
    Reading.constantList_congr hrounds (Nat.lt_succ_self _)
  rw [constants, constantList_eq h hs hrounds, hsame]
  simp only [Option.bind_eq_bind, Option.bind_some, statementEnd_eq (h.length_lt hafter)]
  rfl

/-! ### Signatures -/

/-- How many tokens are in front of a place. -/
def position (tokens : List Token) (c : Cursor) : Nat := tokens.length - c.rest.length

/-- The tokens between two positions, which have to be in order and within the list. -/
def sliceTokens? (tokens : List Token) (start stop : Nat) : Option (List Token) :=
  if start ≤ stop ∧ stop ≤ tokens.length then some ((tokens.take stop).drop start) else none

/-- The tokens from a position up to the token in front of the place. -/
def pieceBehind (tokens : List Token) (start : Nat) (c : Cursor) : Option (List Token) := do
  sliceTokens? tokens start (← lower (position tokens c))

theorem pieceBehind_eq {tokens front piece rest : List Token} {t : Token}
    (h : tokens = front ++ (piece ++ t :: rest)) (previous : Option Token) :
    pieceBehind tokens front.length ⟨previous, rest⟩ = some piece := by
  have hposition : position tokens ⟨previous, rest⟩ = front.length + piece.length + 1 := by
    simp only [position, h, List.length_append, List.length_cons]
    omega
  have hwithin : front.length ≤ front.length + piece.length ∧
      front.length + piece.length ≤ tokens.length := by
    simp only [h, List.length_append]
    omega
  rw [pieceBehind, hposition, lower_succ]
  simp only [Option.bind_eq_bind, Option.bind_some]
  rw [sliceTokens?, if_pos hwithin, h, ← List.append_assoc, ← List.length_append,
    List.take_left, List.drop_left]

/-- The tokens of each parameter up to the parenthesis that closes their list, the place after it,
and whether there is one. The current parameter begins at a position. -/
def parameterSlices (tokens : List Token) :
    Nat → Nat → Nat → Cursor → Option (List (List Token) × Cursor × Bool)
  | 0, _, _, _ => none
  | n + 1, start, depth, c =>
    match c.peek with
    | none => some ([], c, false)
    | some t => do
      let c ← advance c
      if t.opens then parameterSlices tokens n start (depth + 1) c
      else if t.closes && 0 < depth then parameterSlices tokens n start (← lower depth) c
      else if t.is ")" then some ([← pieceBehind tokens start c], c, true)
      else if depth = 0 && t.is "," then
        let piece ← pieceBehind tokens start c
        let (pieces, c, closed) ← parameterSlices tokens n (position tokens c) depth c
        some (piece :: pieces, c, closed)
      else parameterSlices tokens n start depth c

theorem parameterSlices_eq {tokens front piece : List Token} {n : Nat} {c : Cursor}
    (h : tokens = front ++ (piece.reverse ++ c.rest)) (hn : c.rest.length < n) (depth : Nat) :
    parameterSlices tokens n front.length depth c =
        some ((Reader.parameterPieces depth piece c.rest).1,
          c.skip (Reader.parameterPieces depth piece c.rest).2.1,
          (Reader.parameterPieces depth piece c.rest).2.2) ∧
      ∀ p ∈ (Reader.parameterPieces depth piece c.rest).1, p <:+: tokens := by
  induction n generalizing c depth front piece with
  | zero => exact absurd hn (Nat.not_lt_zero _)
  | succ n ih =>
    obtain ⟨previous, rest⟩ := c
    cases rest with
    | nil => exact ⟨rfl, nofun⟩
    | cons t rest =>
      have hpiece : piece.reverse <:+: tokens := ⟨front, t :: rest, by rw [h, List.append_assoc]⟩
      have hmore := @ih front (t :: piece) ⟨some t, rest⟩ (by simpa using h)
        (Nat.lt_of_succ_lt_succ hn)
      have hnext := @ih (front ++ piece.reverse ++ [t]) [] ⟨some t, rest⟩ (by simpa using h)
        (Nat.lt_of_succ_lt_succ hn) 0
      have hposition : position tokens ⟨some t, rest⟩ = (front ++ piece.reverse ++ [t]).length := by
        simp only [position, h, List.length_append, List.length_cons, List.length_nil]
        omega
      rw [parameterSlices, Reader.parameterPieces.eq_def]
      simp only [peek, List.head?_cons, advance_cons, Option.bind_eq_bind, Option.bind_some,
        pieceBehind_eq h, hposition]
      split
      · exact hmore (depth + 1)
      · split
        · next hcloses =>
          obtain ⟨outer, rfl⟩ : ∃ outer, depth = outer + 1 := ⟨depth - 1, by grind⟩
          exact hmore outer
        · split
          · exact ⟨rfl, by simpa using hpiece⟩
          · split
            · next hcomma =>
              obtain rfl : depth = 0 := by simp_all
              rw [hnext.1]
              exact ⟨rfl, by simpa using ⟨hpiece, hnext.2⟩⟩
            · exact hmore depth

def defaultValue (lim : Limits) : List Token → Option (Option String)
  | eq :: first :: rest =>
    if eq.is "=" then do
      let last ← (first :: rest).getLast?
      let text ← Text.slice? lim.source first.start last.stop
      some (some (String.ofList (Text.trim text.toList)))
    else some none
  | _ => some none

theorem defaultValue_eq (h : lim.Suffice) {ts : List Token} (hts : ts <:+: lim.tokens) :
    defaultValue lim ts = some (Reader.defaultValue ts) := by
  match ts, hts with
  | [], _ | [_], _ => rfl
  | eq :: first :: rest, hts =>
    have hrow : first :: rest <:+: lim.tokens := (List.suffix_cons eq _).isInfix.trans hts
    obtain ⟨last, hlast⟩ : ∃ last, (first :: rest).getLast? = some last := ⟨_, List.getLast?_cons⟩
    rw [defaultValue, Reader.defaultValue, hlast]
    split
    · simp only [h.spells.slice?_row hrow hlast, Option.bind_eq_bind, Option.bind_some,
        String.toList_ofList]
    · rfl

def parameter (lim : Limits) (doc : Option DocBlock) (types : String) (sofar : Argument) :
    List Token → Option (Option Argument)
  | [] => some none
  | t :: rest =>
    match t.kind with
    | .variableName => do
      let default ← defaultValue lim rest
      some (some { sofar with
        name := t.text
        line := t.line
        types := Reader.declaredTypes types
        default := default
        description := (doc.map (·.parameterDescription t.text)).getD "" })
    | _ =>
      if Reader.promotions.any t.isKeyword then parameter lim doc types sofar rest
      else if t.is "..." then parameter lim doc types { sofar with isVariadic := true } rest
      else if t.is "&" && rest.head?.any (fun u => u.kind == .variableName || u.is "...") then
        parameter lim doc types { sofar with byReference := true } rest
      else parameter lim doc (types ++ t.text) sofar rest

theorem parameter_eq (h : lim.Suffice) (doc : Option DocBlock) {types : String}
    {sofar : Argument} {ts : List Token} (hts : ts <:+: lim.tokens) :
    parameter lim doc types sofar ts = some (Reader.parameter? doc types sofar ts) := by
  induction ts generalizing types sofar with
  | nil => rfl
  | cons t rest ih =>
    have hrest : rest <:+: lim.tokens := (List.suffix_cons t rest).isInfix.trans hts
    rw [parameter, Reader.parameter?, defaultValue_eq h hrest]
    cases t.kind with
    | variableName => rfl
    | _ => simp only [ih hrest, apply_ite some]

def argumentList (lim : Limits) (doc : Option DocBlock) :
    List (List Token) → Option (List Argument)
  | [] => some []
  | piece :: rest => do
    let argument ← parameter lim doc "" { name := "", line := 0 } piece
    let others ← argumentList lim doc rest
    some (argument.toList ++ others)

theorem argumentList_eq (h : lim.Suffice) (doc : Option DocBlock)
    {pieces : List (List Token)} (hpieces : ∀ p ∈ pieces, p <:+: lim.tokens) :
    argumentList lim doc pieces =
      some (pieces.filterMap (Reader.parameter? doc "" { name := "", line := 0 })) := by
  induction pieces with
  | nil => rfl
  | cons piece rest ih =>
    rw [argumentList, parameter_eq h doc (hpieces piece List.mem_cons_self),
      ih fun p hp => hpieces p (List.mem_cons_of_mem _ hp), List.filterMap_cons]
    cases Reader.parameter? doc "" { name := "", line := 0 } piece <;> rfl

def parameters (lim : Limits) (doc : Option DocBlock) (c : Cursor) :
    Option Reader.Parameters :=
  match c.eatPunct "(" with
  | none => some ⟨[], c, none⟩
  | some inner => do
    let (pieces, after, closed) ←
      parameterSlices lim.tokens lim.rounds (position lim.tokens inner) 0 inner
    let arguments ← argumentList lim doc pieces
    some ⟨arguments, after, if closed then none else some c.line⟩

theorem parameters_eq (h : lim.Suffice) (doc : Option DocBlock) {c : Cursor}
    (hc : c.rest <:+ lim.tokens) : parameters lim doc c = some (Reader.parameters doc c) := by
  rw [parameters, Reader.parameters]
  cases hinner : c.eatPunct "(" with
  | none => rfl
  | some inner =>
    have hrest := (leads_eat hinner).suffix.trans hc
    have hrounds := h.length_lt hrest
    obtain ⟨front, hfront⟩ := hrest
    have hposition : position lim.tokens inner = front.length := by
      simp [position, ← hfront]
    obtain ⟨hslices, hpieces⟩ :=
      @parameterSlices_eq lim.tokens front [] lim.rounds inner hfront.symm hrounds 0
    simp only [hposition, hslices, argumentList_eq h doc hpieces, Option.bind_eq_bind,
      Option.bind_some]

def typeTokens : Nat → Cursor → Option (List Token × Cursor)
  | 0, _ => none
  | n + 1, c =>
    match c.peek with
    | none => some ([], c)
    | some t =>
      if t.opensBlock || t.endsStatement then some ([], c)
      else do
        let (types, c) ← typeTokens n (← advance c)
        some (t :: types, c)

theorem typeTokens_eq {n : Nat} {c : Cursor} (hn : c.rest.length < n) :
    let types := c.rest.takeWhile fun t => !(t.opensBlock || t.endsStatement)
    typeTokens n c = some (types, c.skip types.length) := by
  induction n generalizing c with
  | zero => exact absurd hn (Nat.not_lt_zero _)
  | succ n ih =>
    obtain ⟨previous, rest⟩ := c
    cases rest with
    | nil => rfl
    | cons t rest =>
      rw [typeTokens, List.takeWhile_cons]
      cases hends : t.opensBlock || t.endsStatement with
      | true => simp [peek, hends]
      | false =>
        simp only [peek, List.head?_cons, hends, advance_cons, Option.bind_eq_bind,
          Option.bind_some, ih (c := ⟨some t, rest⟩) (Nat.lt_of_succ_lt_succ hn)]
        rfl

def returnTypes (lim : Limits) (c : Cursor) : Option (List String × Cursor) :=
  match c.eatPunct ":" with
  | none => some ([], c)
  | some inner => do
    let (types, c) ← typeTokens lim.rounds inner
    some (Reader.declaredTypes (Text.join "" (types.map Token.text)), c)

theorem returnTypes_eq (h : lim.Suffice) {c : Cursor} (hc : c.rest <:+ lim.tokens) :
    returnTypes lim c = some (Reader.returnTypes c) := by
  rw [returnTypes, Reader.returnTypes]
  cases hinner : c.eatPunct ":" with
  | none => rfl
  | some inner =>
    dsimp only
    rw [typeTokens_eq (h.length_lt ((leads_eat hinner).suffix.trans hc))]
    rfl

/-! ### Bodies -/

def skipBlock (lim : Limits) (s : Reading) (line : Nat) : Option Reading := do
  let (closed, c) ← blockEnd lim.rounds 1 s.cursor
  let s := s.moveTo c
  some (if closed then s else s.report line "unclosed block")

theorem skipBlock_eq (h : lim.Suffice) {s : Reading} (hs : s.cursor.rest <:+ lim.tokens)
    (line : Nat) : skipBlock lim s line = some (s.skipBlock line) := by
  rw [skipBlock, Reading.skipBlock, blockEnd_eq (h.length_lt hs) 0]
  cases blockWidth 0 s.cursor.rest <;> rfl

def skipBody (lim : Limits) (s : Reading) : Option Reading :=
  match s.cursor.eat Token.opensBlock with
  | some inner => skipBlock lim (s.moveTo inner) s.cursor.line
  | none => some (s.moveTo s.cursor.dropEnd)

theorem skipBody_eq (h : lim.Suffice) {s : Reading} (hs : s.cursor.rest <:+ lim.tokens) :
    skipBody lim s = some s.skipBody := by
  rw [skipBody, Reading.skipBody]
  cases hinner : s.cursor.eat Token.opensBlock with
  | none => rfl
  | some inner =>
    exact skipBlock_eq h (s := s.moveTo inner) ((leads_eat hinner).suffix.trans hs) _

def signature (lim : Limits) (s : Reading) (doc : Option DocBlock) :
    Option (List Argument × List String × Reading) := do
  let list ← parameters lim doc s.cursor
  let s :=
    match list.unclosed with
    | some line => s.report line "unclosed parameter list"
    | none => s
  let (types, c) ← returnTypes lim list.after
  some (list.arguments, types, ← skipBody lim (s.moveTo c))

theorem signature_eq (h : lim.Suffice) {s : Reading} (hs : s.cursor.rest <:+ lim.tokens)
    (doc : Option DocBlock) : signature lim s doc = some (s.signature doc) := by
  have hlist := Reader.leads_parameters doc s.cursor
  have htypes := hlist.trans (Reader.leads_returnTypes _)
  have hbody (u : Reading) := skipBody_eq h (s := u.moveTo _) (htypes.suffix.trans hs)
  rw [signature, parameters_eq h doc hs]
  simp only [Option.bind_eq_bind, Option.bind_some, returnTypes_eq h (hlist.suffix.trans hs), hbody]
  rfl

end ApiDoc.Guarded
