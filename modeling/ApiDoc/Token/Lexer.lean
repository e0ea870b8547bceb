import ApiDoc.Text.Decimal
import ApiDoc.Text.Pieces
import ApiDoc.Token

/-!
# Dividing source text into tokens

The text is divided into pieces that lie side by side and lose nothing: tokens, and what is skipped
between them (markup outside PHP tags, blanks, plain comments, attributes). At every position the
first character and what follows it decide the kind and the width of the piece (`width`).
`Token.ofSource` places the tokens: it counts the bytes and lines of all pieces before each of them.
A comment, string, heredoc or attribute that does not end is an error at the line where it starts.
-/

namespace ApiDoc

/-- What cannot be divided into tokens. -/
inductive LexFault
  | comment
  | string
  | heredoc
  | label
  | attribute
deriving DecidableEq, Inhabited

def LexFault.message : LexFault → String
  | .comment => "unterminated comment"
  | .string => "unterminated string"
  | .heredoc => "unterminated heredoc"
  | .label => "heredoc without label"
  | .attribute => "unterminated attribute"

/-- A fault and the line where the faulty piece starts. -/
structure LexError where
  line : Nat
  fault : LexFault
deriving DecidableEq

def LexError.message (e : LexError) : String :=
  "line " ++ Text.ofNat e.line ++ ": " ++ e.fault.message

namespace Lexer

/-! ### Character classes -/

/-- The characters a name starts with: letters, the underscore and everything beyond ASCII. -/
def isNameStart (c : Char) : Bool := c.isAlpha || c == '_' || 128 ≤ c.toNat

def isNameChar (c : Char) : Bool := isNameStart c || c.isDigit

def isQualifiedChar (c : Char) : Bool := isNameChar c || c == '\\'

/-- The characters a number is made of once it has started. -/
def isNumberChar (c : Char) : Bool := c.isAlphanum || c == '.' || c == '_'

def isTabOrSpace (c : Char) : Bool := c == ' ' || c == '\t'

/-- The two quotes that delimit strings inside an attribute. -/
def isQuote (c : Char) : Bool := c == '\x27' || c == '\x22'

/-! ### Widths of single pieces -/

/-- How many characters lie before the end of a line comment: a newline or a closing tag. -/
def lineCommentWidth : List Char → Nat
  | [] => 0
  | '\n' :: _ => 0
  | '?' :: '>' :: _ => 0
  | _ :: cs => lineCommentWidth cs + 1

/-- How many characters of a comment follow its opening slash and star. -/
def blockCommentWidth (cs : List Char) : Option Nat :=
  (Text.cut? ['*', '/'] cs).map fun (front, _) => front.length + 2

/-- How many characters of a string follow its opening quote. A backslash takes the next character
with it. -/
def stringWidth (quote : Char) : List Char → Option Nat
  | [] => none
  | [c] => if c == quote then some 1 else none
  | c :: d :: cs =>
    if c == '\\' then (stringWidth quote cs).map (· + 2)
    else if c == quote then some 1
    else (stringWidth quote (d :: cs)).map (· + 1)

/-- How many characters of a heredoc follow its opening label: up to the first line that starts,
after blanks, with the label and goes on with no character of a name. -/
def heredocBodyWidth (label : List Char) : List Char → Option Nat
  | [] => none
  | c :: cs =>
    let indent := cs.takeWhile isTabOrSpace
    let rest := cs.dropWhile isTabOrSpace
    let goesOn := (rest.drop label.length).head?.any isNameChar
    if c == '\n' && Text.startsWith label rest && !goesOn then
      some (1 + indent.length + label.length)
    else (heredocBodyWidth label cs).map (· + 1)

/-- How many characters of a heredoc follow its three opening signs. -/
def heredocWidth (cs : List Char) : Except LexFault Nat :=
  let gap := (cs.takeWhile isTabOrSpace).length
  let opened := cs.dropWhile isTabOrSpace
  let quote := opened.head?.filter isQuote
  let labelled := if quote.isSome then opened.drop 1 else opened
  let label := labelled.takeWhile isNameChar
  let rest := labelled.dropWhile isNameChar
  if label.isEmpty then .error .label
  else
    match quote with
    | none =>
      match heredocBodyWidth label rest with
      | some n => .ok (gap + label.length + n)
      | none => .error .heredoc
    | some q =>
      if rest.head? == some q then
        match heredocBodyWidth label (rest.drop 1) with
        | some n => .ok (gap + label.length + 2 + n)
        | none => .error .heredoc
      else .error .heredoc

/-- How many characters an attribute has, when `seen` of them lie before the given text and `depth`
brackets are open. A fault comes with the number of characters before the piece it is about. -/
def attributeWidth (depth seen : Nat) : List Char → Except (LexFault × Nat) Nat
  | [] => .error (.attribute, 0)
  | c :: cs =>
    if isQuote c then
      match stringWidth c cs with
      | some n => attributeWidth depth (seen + 1 + n) (cs.drop n)
      | none => .error (.string, seen)
    else if c == '[' then attributeWidth (depth + 1) (seen + 1) cs
    else if c == ']' then
      if depth ≤ 1 then .ok (seen + 1) else attributeWidth (depth - 1) (seen + 1) cs
    else attributeWidth depth (seen + 1) cs
termination_by cs => cs.length
decreasing_by
  all_goals simp only [List.length_drop, List.length_cons]
  all_goals omega

/-- Punctuation of more than one character, without the first; earlier rows win. -/
def compounds : List (Char × List Char) := [
  ('?', ['-', '>']), ('.', ['.', '.']), (':', [':']), ('-', ['>']), ('=', ['>']), ('?', ['?'])]

/-- How many characters of a punctuation follow its first. -/
def punctWidth (c : Char) (cs : List Char) : Nat :=
  match compounds.find? fun row => row.1 == c && Text.startsWith row.2 cs with
  | some row => row.2.length
  | none => 0

/-- How many characters of the markup that starts a text belong to it, its opening tag included. -/
def markupWidth (cs : List Char) : Nat :=
  match Text.cut? ['<', '?'] cs with
  | none => cs.length
  | some (front, rest) =>
    let tag :=
      if Text.startsWith ['p', 'h', 'p'] rest then 3
      else if Text.startsWith ['='] rest then 1
      else 0
    front.length + 2 + tag

/-! ### Pieces -/

/-- Whether the text at hand is markup outside PHP tags or code inside them. -/
inductive Mode
  | markup
  | code
deriving DecidableEq

/-- A piece of the source: a token of a kind, or skipped text. -/
structure Piece where
  kind : Option TokenKind
  text : List Char
deriving DecidableEq

/-- The kind of the piece of code that starts with `c` and goes on in `cs`, and how many characters
of `cs` belong to it. -/
def codeWidth (c : Char) (cs : List Char) : Except (LexFault × Nat) (Option TokenKind × Nat) :=
  if c == '\n' || c == ' ' || c == '\t' || c == '\r' then .ok (none, 0)
  else if c == '?' && Text.startsWith ['>'] cs then .ok (some .closeTag, 1)
  else if c == '#' && Text.startsWith ['['] cs then
    (attributeWidth 1 2 (cs.drop 1)).map fun n => (none, n - 1)
  else if c == '#' || (c == '/' && Text.startsWith ['/'] cs) then .ok (none, lineCommentWidth cs)
  else if c == '/' && Text.startsWith ['*'] cs then
    let kind :=
      if Text.startsWith ['*', '*'] cs && !Text.startsWith ['*', '*', '/'] cs then
        some TokenKind.docComment
      else none
    match blockCommentWidth (cs.drop 1) with
    | some n => .ok (kind, n + 1)
    | none => .error (.comment, 0)
  else if isQuote c || c == '\x60' then
    match stringWidth c cs with
    | some n => .ok (some .literal, n)
    | none => .error (.string, 0)
  else if c == '<' && Text.startsWith ['<', '<'] cs then
    match heredocWidth (cs.drop 2) with
    | .ok n => .ok (some .literal, n + 2)
    | .error fault => .error (fault, 0)
  else if c == '$' && cs.head?.any isNameStart then
    .ok (some .variableName, (cs.takeWhile isNameChar).length)
  else if isNameStart c || c == '\\' then .ok (some .name, (cs.takeWhile isQualifiedChar).length)
  else if c.isDigit then .ok (some .number, (cs.takeWhile isNumberChar).length)
  else .ok (some .punct, punctWidth c cs)

/-- `codeWidth`, or all of the markup up to the next opening tag. -/
def width (mode : Mode) (c : Char) (cs : List Char) :
    Except (LexFault × Nat) (Option TokenKind × Nat) :=
  match mode with
  | .markup => .ok (none, markupWidth (c :: cs) - 1)
  | .code => codeWidth c cs

/-- What the text after a piece is. -/
def modeAfter : Option TokenKind → Mode
  | some .closeTag => .markup
  | _ => .code

/-- The pieces of a text, and the fault that ended the division before its end. -/
structure Division where
  pieces : List Piece
  fault : Option LexFault

/-- The division of a text; before a fault the last piece is what lies in front of it. -/
def divide (mode : Mode) : List Char → Division
  | [] => ⟨[], none⟩
  | c :: cs =>
    match width mode c cs with
    | .error (fault, seen) => ⟨[⟨none, (c :: cs).take seen⟩], some fault⟩
    | .ok (kind, n) =>
      let rest := divide (modeAfter kind) (cs.drop n)
      ⟨⟨kind, c :: cs.take n⟩ :: rest.pieces, rest.fault⟩
termination_by cs => cs.length
decreasing_by
  simp only [List.length_drop, List.length_cons]
  omega

def newlines (cs : List Char) : Nat := cs.count '\n'

/-- The tokens among pieces, of which the first is at a byte offset and a line, after skipped
text. -/
def place (lead : List Char) (offset line : Nat) : List Piece → List Token
  | [] => []
  | ⟨none, text⟩ :: rest =>
    place (lead ++ text) (offset + InlineTag.byteLength text) (line + newlines text) rest
  | ⟨some kind, text⟩ :: rest =>
    let stop := offset + InlineTag.byteLength text
    { kind := kind, text := String.ofList text, lead := String.ofList lead, line := line,
      start := offset, stop := stop } :: place [] stop (line + newlines text) rest

/-- The pieces of a whole text without a fault are that text. -/
theorem flatMap_text_divide (mode : Mode) (cs : List Char) (h : (divide mode cs).fault = none) :
    (divide mode cs).pieces.flatMap Piece.text = cs := by
  fun_induction divide mode cs with
  | case1 => rfl
  | case2 mode c cs fault seen hw => simp at h
  | case3 mode c cs kind n hw rest ih =>
    have hrest : rest.pieces.flatMap Piece.text = cs.drop n := ih h
    simp only [List.flatMap_cons, hrest, List.cons_append, List.take_append_drop]

end Lexer

def Token.ofSource (source : String) : Except LexError (List Token) :=
  let division := Lexer.divide .markup source.toList
  match division.fault with
  | none => .ok (Lexer.place [] 0 1 division.pieces)
  | some fault => .error ⟨1 + Lexer.newlines (division.pieces.flatMap Lexer.Piece.text), fault⟩

end ApiDoc
