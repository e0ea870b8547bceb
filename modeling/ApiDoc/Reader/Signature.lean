import ApiDoc.DocBlock
import ApiDoc.Element
import ApiDoc.Reader.Cursor

/-!
# Signatures

The parameters and return types of functions and methods, and the types and literals that occur in
declarations.
-/

namespace ApiDoc.Reader

/-- The types of a declaration: a question mark adds `null`, bars separate alternatives. -/
def declaredTypes (s : String) : List String :=
  match s.toList with
  | '?' :: c :: rest => [String.ofList (c :: rest), "null"]
  | _ => splitTypes s

/-- The content of a text between two equal quotes, with doubled backslashes undone; any other text
as it is. -/
def unquote (s : String) : String :=
  match s.toList with
  | q :: rest =>
    if (q == '\x27' || q == '\x22') && rest.getLast? == some q then
      String.ofList (Text.replaceAll ['\\', '\\'] ['\\'] rest.dropLast)
    else s
  | [] => s

/-- The tokens of each parameter, how many tokens the list has up to its closing parenthesis, and
whether it has one. `piece` holds the tokens of the current parameter in reverse. -/
def parameterPieces (depth : Nat) (piece : List Token) : List Token → List (List Token) × Nat × Bool
  | [] => ([], 0, false)
  | t :: ts =>
    let further (depth : Nat) (piece : List Token) :=
      let (pieces, n, closed) := parameterPieces depth piece ts
      (pieces, n + 1, closed)
    if t.opens then further (depth + 1) (t :: piece)
    else if t.closes && 0 < depth then further (depth - 1) (t :: piece)
    else if t.is ")" then ([piece.reverse], 1, true)
    else if depth = 0 && t.is "," then
      let (pieces, n, closed) := further 0 []
      (piece.reverse :: pieces, n, closed)
    else further depth (t :: piece)

/-- The modifiers that make a parameter of a constructor a property. -/
def promotions : List String := ["public", "protected", "private", "readonly"]

/-- The default value written after a parameter. -/
def defaultValue : List Token → Option String
  | eq :: first :: rest =>
    if eq.is "=" then some (String.ofList (Text.trim (Token.sourceText (first :: rest)))) else none
  | _ => none

/-- Reads one parameter; `sofar` holds what was read before its variable. -/
def parameter? (doc : Option DocBlock) (types : String) (sofar : Argument) :
    List Token → Option Argument
  | [] => none
  | t :: rest =>
    match t.kind with
    | .variableName =>
      some { sofar with
        name := t.text
        line := t.line
        types := declaredTypes types
        default := defaultValue rest
        description := (doc.map (·.parameterDescription t.text)).getD "" }
    | _ =>
      if promotions.any t.isKeyword then parameter? doc types sofar rest
      else if t.is "..." then parameter? doc types { sofar with isVariadic := true } rest
      else if t.is "&" && rest.head?.any (fun u => u.kind == .variableName || u.is "...") then
        parameter? doc types { sofar with byReference := true } rest
      else parameter? doc (types ++ t.text) sofar rest

/-- What was read of a parameter list: the arguments, the place after it, and the line of its
opening parenthesis if it is not closed. -/
structure Parameters where
  arguments : List Argument
  after : Cursor
  unclosed : Option Nat

/-- Reads a parameter list in parentheses, if one is next. -/
def parameters (doc : Option DocBlock) (c : Cursor) : Parameters :=
  match c.eatPunct "(" with
  | none => ⟨[], c, none⟩
  | some inner =>
    let (pieces, n, closed) := parameterPieces 0 [] inner.rest
    { arguments := pieces.filterMap (parameter? doc "" { name := "", line := 0 })
      after := inner.skip n
      unclosed := if closed then none else some c.line }

/-- Reads the return types after a colon, if one is next. -/
def returnTypes (c : Cursor) : List String × Cursor :=
  match c.eatPunct ":" with
  | none => ([], c)
  | some inner =>
    let types := inner.rest.takeWhile fun t => !(t.opensBlock || t.endsStatement)
    (declaredTypes (Text.join "" (types.map Token.text)), inner.skip types.length)

end ApiDoc.Reader
