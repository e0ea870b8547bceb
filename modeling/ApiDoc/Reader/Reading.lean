import ApiDoc.File
import ApiDoc.Reader.Signature

/-!
# The state of reading a source file

What a reader of declarations carries from token to token: its place, the file as read so far, the
current namespace, the doc comment that waits for its element, whether the doc comment of the file
is settled, and the blocks that are open around the place. Names of class-likes are qualified as PHP
does it: against the imports of the file, else against the namespace.
-/

namespace ApiDoc

/-- A block that is open: the line of its brace and, for the block of a namespace, the namespace
that comes back when it closes. -/
structure OpenBlock where
  line : Nat
  outer : Option Fqsen := none
deriving DecidableEq

/-- The state of reading a source file. -/
structure Reading where
  cursor : Cursor
  file : File
  space : Fqsen := Fqsen.root
  pending : Option DocBlock := none
  fileDocSettled : Bool := false
  blocks : List OpenBlock := []
deriving DecidableEq

namespace Reading

def moveTo (s : Reading) (c : Cursor) : Reading := { s with cursor := c }

def step (s : Reading) : Reading := s.moveTo s.cursor.step

/-- The state with no doc comment waiting. -/
def forget (s : Reading) : Reading := { s with pending := none }

def report (s : Reading) (line : Nat) (message : String) : Reading :=
  { s with file := { s.file with problems := s.file.problems ++ [⟨line, message⟩] } }

/-- Passes over the rest of a block whose brace is at a line. -/
def skipBlock (s : Reading) (line : Nat) : Reading :=
  match Cursor.blockWidth 0 s.cursor.rest with
  | some n => s.moveTo (s.cursor.skip n)
  | none => (s.moveTo (s.cursor.skip s.cursor.rest.length)).report line "unclosed block"

/-- Passes over the body of a function, or over the end of a statement if it has none. -/
def skipBody (s : Reading) : Reading :=
  match s.cursor.eat Token.opensBlock with
  | some inner => (s.moveTo inner).skipBlock s.cursor.line
  | none => s.moveTo s.cursor.dropEnd

/-- The documentation of an element with a doc comment. -/
def document (doc : Option DocBlock) (i : Info) : Info :=
  match doc with
  | some d => { i with summary := d.summary, description := d.description, tags := d.tags }
  | none => i

/-! ### Names -/

/-- The names that are never qualified. -/
def reservedNames : List String := ["self", "static", "parent"]

/-- The import of a name, in capital or small letters; of several the first in order. -/
def alias? (s : Reading) (name : String) : Option Fqsen :=
  (s.file.aliases.entries.find? fun e => Text.sameLetters e.1 name).map Prod.snd

/-- The full name of a class-like, as PHP finds it when it compiles the file. -/
def qualify (s : Reading) (name : String) : String :=
  if name.toList.head? == some Fqsen.separator then name
  else
    let (first, rest) :=
      match Text.cut? [Fqsen.separator] name.toList with
      | some (front, back) => (String.ofList front, some (String.ofList back))
      | none => (name, none)
    match Text.sameLetters first "namespace", rest with
    | true, some tail => (s.space.join tail).text
    | _, _ =>
      match s.alias? first with
      | some target =>
        match rest with
        | some tail => (target.join tail).text
        | none => target.text
      | none =>
        if rest.isNone && reservedNames.any (Text.sameLetters name) then name
        else (s.space.join name).text

/-- Names with commas between them. -/
def nameList : Nat → Cursor → List Token × Cursor
  | 0, c => ([], c)
  | fuel + 1, c =>
    match c.name? with
    | none => ([], c)
    | some (name, c) =>
      match c.eatPunct "," with
      | none => ([name], c)
      | some c =>
        let (names, c) := nameList fuel c
        (name :: names, c)

/-- The qualified names of a list, and the state after it. -/
def references (s : Reading) : List Reference × Reading :=
  let (names, c) := nameList s.cursor.fuel s.cursor
  (names.map fun t => { target := s.qualify t.text }, s.moveTo c)

/-! ### Parts of declarations -/

/-- Constants with their values, up to the end of the statement. The last name before an equals sign
is the constant, names before it are its type. -/
def constantList : Nat → Cursor → List (Token × String) × Cursor
  | 0, c => ([], c)
  | fuel + 1, c =>
    let names := c.rest.takeWhile fun t => t.kind == .name
    let afterNames := c.skip names.length
    match names.getLast?, afterNames.eatPunct "=" with
    | some name, some afterSign =>
      let (value, afterValue) := afterSign.expression [","]
      match afterValue.eatPunct "," with
      | none => ([(name, value)], afterValue)
      | some c =>
        let (constants, c) := constantList fuel c
        ((name, value) :: constants, c)
    | _, _ => ([], afterNames)

def constants (s : Reading) : List (Token × String) × Reading :=
  let (constants, c) := constantList s.cursor.fuel s.cursor
  (constants, s.moveTo c.skipStatement)

/-- Reads the parameters, the return types and the body of a function or method. -/
def signature (s : Reading) (doc : Option DocBlock) : List Argument × List String × Reading :=
  let list := Reader.parameters doc s.cursor
  let s :=
    match list.unclosed with
    | some line => s.report line "unclosed parameter list"
    | none => s
  let (types, c) := Reader.returnTypes list.after
  (list.arguments, types, (s.moveTo c).skipBody)

end Reading

end ApiDoc
