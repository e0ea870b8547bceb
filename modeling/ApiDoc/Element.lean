import ApiDoc.Tag

/-!
# Documented elements

Every element has the same documentation record, `Info`, and a body of its kind. Classes, interfaces
and traits own members, each of which is found by its kind and short name. `Item` is what all kinds
have in common: the record, the kind and the declared visibility, if the element has one.
-/

namespace ApiDoc

/-- What is documented of every element. -/
structure Info where
  fqsen : Fqsen
  name : String
  line : Nat
  summary : String := ""
  description : String := ""
  tags : Tags := {}
  package : Option String := none
deriving DecidableEq, Inhabited

/-- The record of an element without documentation; its short name is that of its full name. -/
def Info.ofFqsen (fqsen : Fqsen) (line : Nat) : Info :=
  { fqsen := fqsen, name := fqsen.name, line := line }

/-- An element: its documentation and what is special to its kind. -/
structure Element (α : Type) where
  info : Info
  body : α
deriving DecidableEq, Inhabited

def Element.mapInfo {α : Type} (f : Info → Info) (e : Element α) : Element α :=
  { e with info := f e.info }

structure Argument where
  name : String
  line : Nat
  types : List String := []
  default : Option String := none
  byReference : Bool := false
  isVariadic : Bool := false
  description : String := ""
deriving DecidableEq, Inhabited

structure FunctionBody where
  arguments : List Argument := []
  returnTypes : List String := []
deriving DecidableEq, Inhabited

structure ConstantBody where
  value : String := ""
  visibility : Visibility := .public
deriving DecidableEq, Inhabited

structure MethodBody where
  visibility : Visibility := .public
  isAbstract : Bool := false
  isFinal : Bool := false
  isStatic : Bool := false
  arguments : List Argument := []
  returnTypes : List String := []
deriving DecidableEq, Inhabited

structure PropertyBody where
  visibility : Visibility := .public
  isStatic : Bool := false
  types : List String := []
  default : Option String := none
deriving DecidableEq, Inhabited

/-- What all kinds of elements have in common. -/
structure Item where
  kind : ElementKind
  info : Info
  visibility : Option Visibility := none
deriving DecidableEq, Inhabited

/-- A constant as an item; only a constant of a class has a visibility. -/
def Element.constantItem (e : Element ConstantBody) : Item :=
  ⟨.constant, e.info, if e.info.fqsen.isMember then some e.body.visibility else none⟩

def Element.functionItem (e : Element FunctionBody) : Item := ⟨.function, e.info, none⟩

def Element.methodItem (e : Element MethodBody) : Item := ⟨.method, e.info, some e.body.visibility⟩

def Element.propertyItem (e : Element PropertyBody) : Item :=
  ⟨.property, e.info, some e.body.visibility⟩

/-- The members of a class, interface or trait, by short name. -/
structure Members where
  methods : NameMap (Element MethodBody) := .empty
  properties : NameMap (Element PropertyBody) := .empty
  constants : NameMap (Element ConstantBody) := .empty
deriving DecidableEq, Inhabited

namespace Members

/-- The members with a method, which replaces one of the same short name. -/
def addMethod (m : Members) (e : Element MethodBody) : Members :=
  { m with methods := m.methods.insert e.info.name e }

def addProperty (m : Members) (e : Element PropertyBody) : Members :=
  { m with properties := m.properties.insert e.info.name e }

def addConstant (m : Members) (e : Element ConstantBody) : Members :=
  { m with constants := m.constants.insert e.info.name e }

def item? (m : Members) (kind : ElementKind) (name : String) : Option Item :=
  match kind with
  | .method => (m.methods.get? name).map Element.methodItem
  | .property => (m.properties.get? name).map Element.propertyItem
  | .constant => (m.constants.get? name).map Element.constantItem
  | _ => none

def modifyInfo (m : Members) (kind : ElementKind) (name : String) (f : Info → Info) : Members :=
  match kind with
  | .method => { m with methods := m.methods.modify name (·.mapInfo f) }
  | .property => { m with properties := m.properties.modify name (·.mapInfo f) }
  | .constant => { m with constants := m.constants.modify name (·.mapInfo f) }
  | _ => m

def erase (m : Members) (kind : ElementKind) (name : String) : Members :=
  match kind with
  | .method => { m with methods := m.methods.erase name }
  | .property => { m with properties := m.properties.erase name }
  | .constant => { m with constants := m.constants.erase name }
  | _ => m

def isEmpty (m : Members) : Bool :=
  m.methods.isEmpty && m.properties.isEmpty && m.constants.isEmpty

/-- All members: constants, then properties, then methods, each in name order. -/
def items (m : Members) : List Item :=
  m.constants.values.map Element.constantItem ++ m.properties.values.map Element.propertyItem ++
    m.methods.values.map Element.methodItem

end Members

structure ClassBody where
  parent : Option Reference := none
  interfaces : List Reference := []
  usedTraits : List Reference := []
  isAbstract : Bool := false
  isFinal : Bool := false
  members : Members := {}
deriving DecidableEq, Inhabited

structure InterfaceBody where
  parents : List Reference := []
  members : Members := {}
deriving DecidableEq, Inhabited

structure TraitBody where
  usedTraits : List Reference := []
  members : Members := {}
deriving DecidableEq, Inhabited

def Element.classItem (e : Element ClassBody) : Item := ⟨.class, e.info, none⟩

def Element.interfaceItem (e : Element InterfaceBody) : Item := ⟨.interface, e.info, none⟩

def Element.traitItem (e : Element TraitBody) : Item := ⟨.trait, e.info, none⟩

/-- The references to other class-likes that an element is built on. -/
structure Bases where
  parent : Option Reference := none
  interfaces : List Reference := []
  usedTraits : List Reference := []
deriving DecidableEq, Inhabited

/-- All of them, in the order parent, interfaces, traits. -/
def Bases.all (b : Bases) : List Reference := b.parent.toList ++ b.interfaces ++ b.usedTraits

def Bases.map (f : Reference → Reference) (b : Bases) : Bases :=
  ⟨b.parent.map f, b.interfaces.map f, b.usedTraits.map f⟩

/-- The method of an owner, public and without documentation. -/
def Element.method (owner : Fqsen) (name : String) (line : Nat) : Element MethodBody :=
  ⟨.ofFqsen (owner.member .method name) line, {}⟩

/-- The property of an owner, public and without documentation. -/
def Element.property (owner : Fqsen) (name : String) (line : Nat) : Element PropertyBody :=
  ⟨.ofFqsen (owner.member .property name) line, {}⟩

/-- The constant of an owner, public and without documentation. -/
def Element.classConstant (owner : Fqsen) (name : String) (line : Nat) : Element ConstantBody :=
  ⟨.ofFqsen (owner.member .constant name) line, {}⟩

end ApiDoc
