import ApiDoc.Digest
import ApiDoc.Reader.ClassBody
import ApiDoc.Token.Lexer

/-!
# Reading the declarations of a source file

The tokens of a file are read in one pass. Blocks of statements that are not declarations are
entered, so declarations under a condition are found; the bodies of functions are passed over.
`File.ofSource` is the whole reader: it fails only where the text cannot be divided into tokens.
-/

namespace ApiDoc

namespace Reading

/-- The words that start a declaration. -/
def declarationWords : List String :=
  ["abstract", "class", "const", "define", "enum", "final", "function", "interface", "readonly",
    "trait"]

/-! ### Doc comments -/

/-- Whether the first doc comment of a file, when this state is behind it, documents the file:
unless a declaration follows directly. -/
def behindFileDoc (s : Reading) : Bool :=
  match s.cursor.peek with
  | none => true
  | some t => !declarationWords.any t.isKeyword

/-- Takes in a doc comment that is already passed over. -/
def docComment (s : Reading) (t : Token) : Reading :=
  let doc := DocBlock.parse t.text t.line
  if !s.fileDocSettled && s.behindFileDoc then
    { s with
      fileDocSettled := true
      file := { s.file with
        package := doc.package?
        summary := doc.summary
        description := doc.description
        tags := doc.tags } }
  else { s with fileDocSettled := true, pending := some doc }

/-! ### Namespaces and imports -/

def namespaceDeclaration (s : Reading) : Reading :=
  let c := s.cursor.step
  let (name, c) :=
    match c.name? with
    | some (t, c) => (Fqsen.ofText t.text, c)
    | none => (Fqsen.root, c)
  match c.eat Token.opensBlock with
  | some inner =>
    { s.forget with cursor := inner, space := name, blocks := ⟨c.line, some s.space⟩ :: s.blocks }
  | none => { s.forget with cursor := c.dropEnd, space := name }

/-- One import: the alias after `as`, else the short name of the target. -/
def importAt (target : String) (c : Cursor) : (String × Fqsen) × Cursor :=
  let target := Fqsen.ofText target
  match c.eatKeyword "as" with
  | none => ((target.name, target), c)
  | some c =>
    match c.name? with
    | some (t, c) => ((t.text, target), c)
    | none => ((target.name, target), c)

/-- The imports of a group in braces, which share the start of their names. -/
def importGroup (start : List Char) : Nat → Cursor → List (String × Fqsen) × Cursor
  | 0, c => ([], c)
  | fuel + 1, c =>
    match c.name? with
    | none => ([], c)
    | some (t, c) =>
      let (item, c) := importAt (String.ofList (start ++ Fqsen.separator :: t.text.toList)) c
      match c.eatPunct "," with
      | none => ([item], c)
      | some c =>
        let (items, c) := importGroup start fuel c
        (item :: items, c)

/-- The imports of one name: itself, or a group in braces after it. -/
def importName (t : Token) (c : Cursor) : List (String × Fqsen) × Cursor :=
  match c.eat Token.opensBlock with
  | none =>
    let (item, c) := importAt t.text c
    ([item], c)
  | some c =>
    let start := Text.dropTrailChar Fqsen.separator t.text.toList
    let (items, c) := importGroup start c.fuel c
    (items, (c.eat Token.closesBlock).getD c)

def importList : Nat → Cursor → List (String × Fqsen) × Cursor
  | 0, c => ([], c)
  | fuel + 1, c =>
    match c.name? with
    | none => ([], c)
    | some (t, c) =>
      let (items, c) := importName t c
      match c.eatPunct "," with
      | none => (items, c)
      | some c =>
        let (more, c) := importList fuel c
        (items ++ more, c)

/-- Reads imports from their keyword on; imports of functions and constants are passed over. -/
def useDeclaration (s : Reading) : Reading :=
  let s := s.forget.step
  if s.cursor.next (fun t => t.isKeyword "function" || t.isKeyword "const") then
    s.moveTo s.cursor.skipStatement
  else
    let (items, c) := importList s.cursor.fuel s.cursor
    let aliases := items.foldl (fun m item => m.insert item.1 item.2) s.file.aliases
    { s with cursor := c.skipStatement, file := { s.file with aliases := aliases } }

/-- An include expression without parentheses around the whole and, if it is quoted, its content. -/
def includeText (expression : String) : Option String :=
  let inner := (Text.after? ['('] expression.toList).bind (Text.before? [')'])
  let text :=
    match inner with
    | some cs => String.ofList (Text.trim cs)
    | none => expression
  if text.isEmpty then none else some (Reader.unquote text)

def includeStatement (s : Reading) : Reading :=
  let (expression, c) := s.cursor.step.expression []
  { s with
    cursor := c.dropEnd
    file := { s.file with includes := s.file.includes ++ (includeText expression).toList } }

/-! ### Class-likes -/

/-- Which of the two modifiers of classes stand ahead, and how many tokens all modifiers are. -/
def classModifiers : List Token → Bool × Bool × Nat
  | [] => (false, false, 0)
  | t :: ts =>
    if t.isKeyword "abstract" then
      let (_, isFinal, n) := classModifiers ts
      (true, isFinal, n + 1)
    else if t.isKeyword "final" then
      let (isAbstract, _, n) := classModifiers ts
      (isAbstract, true, n + 1)
    else if t.isKeyword "readonly" then
      let (isAbstract, isFinal, n) := classModifiers ts
      (isAbstract, isFinal, n + 1)
    else (false, false, 0)

/-- The class that a class extends, if its keyword is next, and the place after it. -/
def parentAt (s : Reading) (c : Cursor) : Option Reference × Cursor :=
  match c.eatKeyword "extends" with
  | none => (none, c)
  | some c =>
    match c.name? with
    | some (t, c) => (some { target := s.qualify t.text }, c)
    | none => (none, c)

/-- The qualified names that are listed behind a keyword, if it is next, and the state after them. -/
def listBehind (s : Reading) (keyword : String) : List Reference × Reading :=
  match s.cursor.eatKeyword keyword with
  | some c => (s.moveTo c).references
  | none => ([], s)

/-- Reads a class from its first modifier or its keyword on. -/
def classDeclaration (s : Reading) : Reading :=
  let line := s.cursor.line
  let (isAbstract, isFinal, n) := classModifiers s.cursor.rest
  let c := s.cursor.skip n
  match c.eatKeyword "class" with
  | none => s.moveTo c
  | some c =>
    match c.name? with
    | none => s.moveTo c
    | some (name, c) =>
      let fqsen := s.space.join name.text
      let info := document s.pending (.ofFqsen fqsen line)
      let (parent, c) := s.parentAt c
      let (interfaces, s) := (s.forget.moveTo c).listBehind "implements"
      match s.classBody fqsen false with
      | (none, s) => s
      | (some (members, traits), s) =>
        let body : ClassBody := {
          parent := parent
          interfaces := interfaces
          usedTraits := traits
          isAbstract := isAbstract
          isFinal := isFinal
          members := members }
        { s with file := s.file.addClass ⟨info, body⟩ }

def interfaceDeclaration (s : Reading) : Reading :=
  let line := s.cursor.line
  match s.cursor.step.name? with
  | none => s.step
  | some (name, c) =>
    let fqsen := s.space.join name.text
    let info := document s.pending (.ofFqsen fqsen line)
    let (parents, s) := (s.forget.moveTo c).listBehind "extends"
    match s.classBody fqsen true with
    | (none, s) => s
    | (some (members, _), s) =>
      { s with file := s.file.addInterface ⟨info, { parents := parents, members := members }⟩ }

def traitDeclaration (s : Reading) : Reading :=
  let line := s.cursor.line
  match s.cursor.step.name? with
  | none => s.step
  | some (name, c) =>
    let fqsen := s.space.join name.text
    let info := document s.pending (.ofFqsen fqsen line)
    match (s.forget.moveTo c).classBody fqsen false with
    | (none, s) => s
    | (some (members, traits), s) =>
      { s with file := s.file.addTrait ⟨info, { usedTraits := traits, members := members }⟩ }

/-- Passes over a declaration that is not documented. -/
def skipDeclaration (s : Reading) : Reading :=
  let (n, blockLine) := Cursor.headerWidth 0 s.cursor.rest
  let s := s.moveTo (s.cursor.skip n)
  match blockLine with
  | some line => s.skipBlock line
  | none => s

/-! ### Functions and constants -/

/-- Reads a function from its keyword on; a function without a name is an expression. -/
def functionDeclaration (s : Reading) : Reading :=
  let line := s.cursor.line
  let c := s.cursor.step
  let c := (c.eatPunct "&").getD c
  match c.name? with
  | none => s.moveTo c
  | some (name, afterName) =>
    if afterName.next (·.is "(") then
      let fqsen := s.space.join (name.text ++ "()")
      let doc := s.pending
      let (arguments, returnTypes, s) := (s.forget.moveTo afterName).signature doc
      let function : Element FunctionBody := {
        info := document doc (.ofFqsen fqsen line)
        body := { arguments := arguments, returnTypes := returnTypes } }
      { s with file := s.file.addFunction function }
    else s.moveTo c

def constantDeclaration (s : Reading) : Reading :=
  let line := s.cursor.line
  let doc := s.pending
  let (constants, s) := s.forget.step.constants
  let add (f : File) (constant : Token × String) : File :=
    f.addConstant ⟨document doc (.ofFqsen (s.space.join constant.1.text) line),
      { value := constant.2 }⟩
  { s with file := constants.foldl add s.file }

/-- Reads a constant that a call of `define` declares, from the word on. -/
def defineCall (s : Reading) : Reading :=
  let line := s.cursor.line
  let c := s.cursor.step
  match c.rest with
  | paren :: name :: comma :: _ =>
    if paren.is "(" && name.kind == .literal && comma.is "," then
      let (value, c) := (c.skip 3).expression []
      let c := ((c.eatPunct ")").getD c).dropEnd
      let info := document s.pending (.ofFqsen (Fqsen.ofText (Reader.unquote name.text)) line)
      { s.forget with cursor := c, file := s.file.addConstant ⟨info, { value := value }⟩ }
    else s.moveTo c
  | _ => s.moveTo c

/-! ### Statements -/

/-- Whether the place is behind an access operator, where a word is the name of a member. -/
def behindAccess (s : Reading) : Bool :=
  s.cursor.previous.any fun t => t.is "::" || t.is "->" || t.is "?->"

def wordAhead (s : Reading) (t : Token) : Reading :=
  let word := Text.asciiLower t.text
  let s := if declarationWords.contains word then { s with fileDocSettled := true } else s
  match word with
  | "namespace" => s.namespaceDeclaration
  | "use" => s.useDeclaration
  | "class" =>
    if s.cursor.previous.any (·.isKeyword "new") then s.forget.skipDeclaration
    else s.classDeclaration
  | "abstract" => s.classDeclaration
  | "final" => s.classDeclaration
  | "readonly" => s.classDeclaration
  | "interface" => s.interfaceDeclaration
  | "trait" => s.traitDeclaration
  | "enum" =>
    if (s.cursor.peekAt 1).any (·.kind == .name) then s.forget.skipDeclaration else s.step
  | "function" => s.functionDeclaration
  | "const" => s.constantDeclaration
  | "define" => s.defineCall
  | "require" => s.includeStatement
  | "require_once" => s.includeStatement
  | "include" => s.includeStatement
  | "include_once" => s.includeStatement
  | _ => s.step

/-- The state after the brace that closes the innermost block. -/
def closeBlock (s : Reading) : Reading :=
  match s.blocks with
  | [] => s
  | block :: blocks => { s with blocks := blocks, space := block.outer.getD s.space }

def tokenAhead (s : Reading) (t : Token) : Reading :=
  match t.kind with
  | .docComment => s.step.docComment t
  | .name => if s.behindAccess then s.step else s.wordAhead t
  | _ =>
    if t.opensBlock then { s.forget.step with blocks := ⟨t.line, none⟩ :: s.blocks }
    else if t.closesBlock then s.forget.step.closeBlock
    else if t.endsStatement then s.forget.step
    else s.step

/-- Reads all tokens. -/
def run : Nat → Reading → Reading
  | 0, s => s
  | fuel + 1, s =>
    match s.cursor.peek with
    | none => s
    | some t => run fuel (s.tokenAhead t)

/-- Every block that is still open at the end is a problem, the innermost first. -/
def finish (s : Reading) : File :=
  (s.blocks.foldl (fun s block => s.report block.line "unclosed block") s).file

end Reading

/-- The declarations of a list of tokens, in a file with nothing else known. -/
def File.ofTokens (file : File) (tokens : List Token) : File :=
  (Reading.run (tokens.length + 1) { cursor := { rest := tokens }, file := file }).finish

def File.ofSource (path content : String) : Except LexError File :=
  (Token.ofSource content).map
    (File.ofTokens { path := path, hash := Digest.ofText content })

end ApiDoc
