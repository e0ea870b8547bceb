import ApiDoc.Reader.Reading

/-!
# The body of a class, interface or trait

Members are read one after the other up to the closing brace. Modifiers and types collect until the
member they belong to; a doc comment waits likewise. Statements that declare no member are passed
over.
-/

namespace ApiDoc

/-- The modifiers and types seen before a member. -/
structure Modifiers where
  line : Option Nat := none
  visibility : Option Visibility := none
  isStatic : Bool := false
  isAbstract : Bool := false
  isFinal : Bool := false
  types : String := ""
deriving DecidableEq, Inhabited

/-- The modifiers with the line of the first of them set. -/
def Modifiers.startAt (m : Modifiers) (line : Nat) : Modifiers :=
  { m with line := some (m.line.getD line) }

/-- A body being read: whose it is, whether it is that of an interface, what was found, and the
modifiers that wait for a member. -/
structure BodyReading where
  owner : Fqsen
  isInterface : Bool
  state : Reading
  members : Members := {}
  traits : List Reference := []
  modifiers : Modifiers := {}

namespace BodyReading

def traitUse (b : BodyReading) : BodyReading :=
  let (traits, s) := b.state.references
  let s :=
    match s.cursor.eat Token.opensBlock with
    | some inner => (s.moveTo inner).skipBlock s.cursor.line
    | none => s.moveTo s.cursor.dropEnd
  { b with state := s.forget, traits := b.traits ++ traits, modifiers := {} }

def method (b : BodyReading) : BodyReading :=
  let s := b.state.moveTo ((b.state.cursor.eatPunct "&").getD b.state.cursor)
  match s.cursor.name? with
  | none => { b with state := s.forget, modifiers := {} }
  | some (name, c) =>
    let doc := s.pending
    let (arguments, returnTypes, s) := (s.forget.moveTo c).signature doc
    let declared := Element.method b.owner name.text (b.modifiers.line.getD name.line)
    let method : Element MethodBody := {
      info := Reading.document doc declared.info
      body := {
        visibility := b.modifiers.visibility.getD .public
        isAbstract := b.modifiers.isAbstract
        isFinal := b.modifiers.isFinal
        isStatic := b.modifiers.isStatic
        arguments := arguments
        returnTypes := returnTypes } }
    { b with state := s, members := b.members.addMethod method, modifiers := {} }

/-- Reads properties from the first variable on, which is already passed over. -/
def propertyList (owner : Fqsen) (modifiers : Modifiers) (doc : Option DocBlock) :
    Nat → Token → Cursor → Members → Members × Cursor
  | 0, _, c, members => (members, c)
  | fuel + 1, t, c, members =>
    let (default, c) :=
      match c.eatPunct "=" with
      | some c =>
        let (value, c) := c.expression [","]
        (some value, c)
      | none => (none, c)
    let declared := Element.property owner t.text (modifiers.line.getD t.line)
    let property : Element PropertyBody := {
      info := Reading.document doc declared.info
      body := {
        visibility := modifiers.visibility.getD .public
        isStatic := modifiers.isStatic
        types := Reader.declaredTypes modifiers.types
        default := default } }
    let members := members.addProperty property
    match c.eatPunct "," with
    | none => (members, c)
    | some c =>
      match c.take? .variableName with
      | none => (members, c)
      | some (t, c) => propertyList owner modifiers doc fuel t c members

/-- Reads the properties of a statement whose first variable is already passed over. -/
def properties (b : BodyReading) (first : Token) : BodyReading :=
  let (members, c) := propertyList b.owner b.modifiers b.state.pending b.state.cursor.fuel first
    b.state.cursor b.members
  { b with state := b.state.forget.moveTo c.dropEnd, members := members, modifiers := {} }

def constants (b : BodyReading) : BodyReading :=
  let doc := b.state.pending
  let (constants, s) := b.state.forget.constants
  let add (members : Members) (constant : Token × String) : Members :=
    let declared := Element.classConstant b.owner constant.1.text
      (b.modifiers.line.getD constant.1.line)
    members.addConstant {
      info := Reading.document doc declared.info
      body := { value := constant.2, visibility := b.modifiers.visibility.getD .public } }
  { b with state := s, members := constants.foldl add b.members, modifiers := {} }

/-- Reads on after a word that is already passed over. -/
def word (b : BodyReading) (t : Token) : BodyReading :=
  let started := b.modifiers.startAt t.line
  match Text.asciiLower t.text with
  | "use" => b.traitUse
  | "public" => { b with modifiers := { started with visibility := some .public } }
  | "protected" => { b with modifiers := { started with visibility := some .protected } }
  | "private" => { b with modifiers := { started with visibility := some .private } }
  | "static" => { b with modifiers := { started with isStatic := true } }
  | "abstract" => { b with modifiers := { started with isAbstract := true } }
  | "final" => { b with modifiers := { started with isFinal := true } }
  | "var" => { b with modifiers := started }
  | "readonly" => { b with modifiers := started }
  | "const" => { b with modifiers := started }.constants
  | "function" =>
    let isAbstract := started.isAbstract || b.isInterface
    { b with modifiers := { started with isAbstract := isAbstract } }.method
  | "case" =>
    { b with state := b.state.forget.moveTo b.state.cursor.skipStatement, modifiers := {} }
  | _ => { b with modifiers := { started with types := started.types ++ t.text } }

/-- The punctuation that is part of a type. -/
def isTypePunct (t : Token) : Bool := ["?", "|", "&", "(", ")"].any t.is

/-- Reads on after a token that is already passed over and does not close the body. -/
def token (b : BodyReading) (t : Token) : BodyReading :=
  match t.kind with
  | .docComment =>
    { b with state := { b.state with pending := some (DocBlock.parse t.text t.line) } }
  | .name => b.word t
  | .variableName => { b with modifiers := b.modifiers.startAt t.line }.properties t
  | _ =>
    if isTypePunct t then
      { b with modifiers := { b.modifiers with types := b.modifiers.types ++ t.text } }
    else if t.endsStatement then { b with state := b.state.forget, modifiers := {} }
    else b

/-- Reads members up to the closing brace; a body that is not closed is a problem at the line of its
opening brace. -/
def untilClose (openLine : Nat) : Nat → BodyReading → BodyReading
  | 0, b => b
  | fuel + 1, b =>
    match b.state.cursor.peek with
    | none => { b with state := b.state.report openLine ("unclosed body of " ++ b.owner.text) }
    | some t =>
      let b := { b with state := b.state.step }
      if t.closesBlock then b else untilClose openLine fuel (b.token t)

end BodyReading

/-- Reads the body of a class-like; without an opening brace there is none, which is a problem. -/
def Reading.classBody (s : Reading) (owner : Fqsen) (isInterface : Bool) :
    Option (Members × List Reference) × Reading :=
  let line := s.cursor.line
  match s.cursor.eat Token.opensBlock with
  | none => (none, s.report line ("expected body for " ++ owner.text))
  | some inner =>
    let b := BodyReading.untilClose line inner.fuel
      { owner := owner, isInterface := isInterface, state := s.moveTo inner }
    (some (b.members, b.traits), b.state)

end ApiDoc
