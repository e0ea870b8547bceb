import ApiDoc.InlineTag
import ApiDoc.Text.Lowercase

/-!
# Tokens of PHP source

The pieces of a PHP source file that matter for its declarations. Strings, heredocs and attributes
are one piece each, so nothing inside them looks like code. A token knows its line, its byte
positions and the text that was skipped in front of it, so the source text of a run of tokens can be
put together from the tokens alone (`Token.sourceText`).
-/

namespace ApiDoc

inductive TokenKind
  | docComment
  | name
  | variableName
  | literal
  | number
  | punct
  | closeTag
deriving DecidableEq, Inhabited

def TokenKind.word : TokenKind → String
  | .docComment => "doc"
  | .name => "name"
  | .variableName => "variable"
  | .literal => "literal"
  | .number => "number"
  | .punct => "punct"
  | .closeTag => "close"

/-- One token. `lead` is the text between the previous token and this one; lines are counted from
one, `start` and `stop` are byte offsets into the source. -/
structure Token where
  kind : TokenKind
  text : String
  lead : String
  line : Nat
  start : Nat
  stop : Nat
deriving DecidableEq, Inhabited

namespace Token

/-- Whether the token is this punctuation. -/
def is (t : Token) (punct : String) : Bool := t.kind == .punct && t.text == punct

/-- Whether the token is this keyword, in capital or small letters. -/
def isKeyword (t : Token) (keyword : String) : Bool :=
  t.kind == .name && Text.sameLetters t.text keyword

def endsStatement (t : Token) : Bool := t.is ";" || t.kind == .closeTag

def opensBlock (t : Token) : Bool := t.is "\x7b"

def closesBlock (t : Token) : Bool := t.is "\x7d"

def opens (t : Token) : Bool := t.is "(" || t.is "[" || t.opensBlock

def closes (t : Token) : Bool := t.is ")" || t.is "]" || t.closesBlock

/-- The text of tokens with what lies between them. -/
def gapped (ts : List Token) : List Char :=
  ts.flatMap fun t => t.lead.toList ++ t.text.toList

/-- The source text from the start of the first token to the end of the last. -/
def sourceText : List Token → List Char
  | [] => []
  | t :: ts => t.text.toList ++ gapped ts

end Token

end ApiDoc
