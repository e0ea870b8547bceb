import ApiDoc.Element

/-!
# Source files

A `File` is what was read from one source file: its own doc comment, its imports and includes, and
the elements it declares, by name within each kind. A member is reached through its owner: the
class of that name, else the interface, else the trait.
-/

namespace ApiDoc

/-- A keyword such as `TODO` found in the documentation of an element. -/
structure Marker where
  keyword : String
  message : String
  line : Nat
deriving DecidableEq, Inhabited

/-- A place where a source file does not follow the expected form. -/
structure SourceProblem where
  line : Nat
  message : String
deriving DecidableEq, Inhabited

/-- One source file. The path is relative to the project, the hash that of its content. -/
structure File where
  path : String
  hash : String
  summary : String := ""
  description : String := ""
  tags : Tags := {}
  package : Option String := none
  aliases : NameMap Fqsen := .empty
  includes : List String := []
  classes : NameMap (Element ClassBody) := .empty
  interfaces : NameMap (Element InterfaceBody) := .empty
  traits : NameMap (Element TraitBody) := .empty
  functions : NameMap (Element FunctionBody) := .empty
  constants : NameMap (Element ConstantBody) := .empty
  markers : List Marker := []
  problems : List SourceProblem := []
  source : Option String := none
deriving DecidableEq, Inhabited

namespace File

/-- The file name without directories. -/
def name (f : File) : String :=
  match Text.cutLast? '/' f.path.toList with
  | some (_, back) => String.ofList back
  | none => f.path

/-- The file with a class, which replaces one of the same name. -/
def addClass (f : File) (e : Element ClassBody) : File :=
  { f with classes := f.classes.insert e.info.fqsen.text e }

def addInterface (f : File) (e : Element InterfaceBody) : File :=
  { f with interfaces := f.interfaces.insert e.info.fqsen.text e }

def addTrait (f : File) (e : Element TraitBody) : File :=
  { f with traits := f.traits.insert e.info.fqsen.text e }

def addFunction (f : File) (e : Element FunctionBody) : File :=
  { f with functions := f.functions.insert e.info.fqsen.text e }

def addConstant (f : File) (e : Element ConstantBody) : File :=
  { f with constants := f.constants.insert e.info.fqsen.text e }

/-- The elements outside any class-like: constants, functions, classes, interfaces, traits, each in
name order. -/
def topLevel (f : File) : List Item :=
  f.constants.values.map Element.constantItem ++ f.functions.values.map Element.functionItem ++
    f.classes.values.map Element.classItem ++ f.interfaces.values.map Element.interfaceItem ++
    f.traits.values.map Element.traitItem

/-- The members of the class, interface or trait with a name, and which of the three it is. -/
def membersOf? (f : File) (fqsen : Fqsen) : Option (ElementKind × Members) :=
  match f.classes.get? fqsen.text with
  | some e => some (.class, e.body.members)
  | none =>
    match f.interfaces.get? fqsen.text with
    | some e => some (.interface, e.body.members)
    | none => (f.traits.get? fqsen.text).map fun e => (.trait, e.body.members)

def modifyMembers (f : File) (fqsen : Fqsen) (g : Members → Members) : File :=
  if f.classes.contains fqsen.text then
    { f with classes := f.classes.modify fqsen.text fun e =>
        { e with body := { e.body with members := g e.body.members } } }
  else if f.interfaces.contains fqsen.text then
    { f with interfaces := f.interfaces.modify fqsen.text fun e =>
        { e with body := { e.body with members := g e.body.members } } }
  else
    { f with traits := f.traits.modify fqsen.text fun e =>
        { e with body := { e.body with members := g e.body.members } } }

/-- Whether an element of the kind and name is reached through an owner. -/
def throughOwner (kind : ElementKind) (fqsen : Fqsen) : Bool :=
  match kind with
  | .constant => fqsen.isMember
  | .method => true
  | .property => true
  | _ => false

def memberItem? (f : File) (kind : ElementKind) (fqsen : Fqsen) : Option Item := do
  let owner ← fqsen.owner?
  let (_, members) ← f.membersOf? owner
  members.item? kind fqsen.name

def item? (f : File) (kind : ElementKind) (fqsen : Fqsen) : Option Item :=
  if throughOwner kind fqsen then f.memberItem? kind fqsen
  else
    match kind with
    | .class => (f.classes.get? fqsen.text).map Element.classItem
    | .interface => (f.interfaces.get? fqsen.text).map Element.interfaceItem
    | .trait => (f.traits.get? fqsen.text).map Element.traitItem
    | .function => (f.functions.get? fqsen.text).map Element.functionItem
    | .constant => (f.constants.get? fqsen.text).map Element.constantItem
    | .method => none
    | .property => none

def modifyInfo (f : File) (kind : ElementKind) (fqsen : Fqsen) (g : Info → Info) : File :=
  if throughOwner kind fqsen then
    match fqsen.owner? with
    | some owner => f.modifyMembers owner (·.modifyInfo kind fqsen.name g)
    | none => f
  else
    match kind with
    | .class => { f with classes := f.classes.modify fqsen.text (·.mapInfo g) }
    | .interface => { f with interfaces := f.interfaces.modify fqsen.text (·.mapInfo g) }
    | .trait => { f with traits := f.traits.modify fqsen.text (·.mapInfo g) }
    | .function => { f with functions := f.functions.modify fqsen.text (·.mapInfo g) }
    | .constant => { f with constants := f.constants.modify fqsen.text (·.mapInfo g) }
    | .method => f
    | .property => f

/-- The file without one element; a class-like goes with its members. -/
def erase (f : File) (kind : ElementKind) (fqsen : Fqsen) : File :=
  if throughOwner kind fqsen then
    match fqsen.owner? with
    | some owner => f.modifyMembers owner (·.erase kind fqsen.name)
    | none => f
  else
    match kind with
    | .class => { f with classes := f.classes.erase fqsen.text }
    | .interface => { f with interfaces := f.interfaces.erase fqsen.text }
    | .trait => { f with traits := f.traits.erase fqsen.text }
    | .function => { f with functions := f.functions.erase fqsen.text }
    | .constant => { f with constants := f.constants.erase fqsen.text }
    | .method => f
    | .property => f

/-- What the class, interface or trait of a kind and name is built on; nothing for other kinds. -/
def bases (f : File) (kind : ElementKind) (fqsen : Fqsen) : Bases :=
  match kind with
  | .class =>
    match f.classes.get? fqsen.text with
    | some e => ⟨e.body.parent, e.body.interfaces, e.body.usedTraits⟩
    | none => {}
  | .interface =>
    match f.interfaces.get? fqsen.text with
    | some e => { interfaces := e.body.parents }
    | none => {}
  | .trait =>
    match f.traits.get? fqsen.text with
    | some e => { usedTraits := e.body.usedTraits }
    | none => {}
  | _ => {}

def setBases (f : File) (kind : ElementKind) (fqsen : Fqsen) (b : Bases) : File :=
  match kind with
  | .class =>
    { f with classes := f.classes.modify fqsen.text fun e =>
        { e with body := { e.body with
          parent := b.parent, interfaces := b.interfaces, usedTraits := b.usedTraits } } }
  | .interface =>
    { f with interfaces := f.interfaces.modify fqsen.text fun e =>
        { e with body := { e.body with parents := b.interfaces } } }
  | .trait =>
    { f with traits := f.traits.modify fqsen.text fun e =>
        { e with body := { e.body with usedTraits := b.usedTraits } } }
  | _ => f

/-- The kinds and names of all elements: each top-level element, a class-like followed by the
members found under its name. -/
def declared (f : File) : List (ElementKind × Fqsen) :=
  f.topLevel.flatMap fun item =>
    let members :=
      if item.kind.isContainer then
        match f.membersOf? item.info.fqsen with
        | some (_, members) => members.items.map fun m => (m.kind, m.info.fqsen)
        | none => []
      else []
    (item.kind, item.info.fqsen) :: members

end File

end ApiDoc
