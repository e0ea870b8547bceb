import ApiDoc.Text.Lowercase

/-!
# Kinds and visibility

The seven kinds of documented elements and the three visibilities a member can be declared with. A
constant of a class and a constant of a namespace have the same kind; their names tell them apart.
-/

namespace ApiDoc

inductive ElementKind
  | «class»
  | interface
  | trait
  | function
  | constant
  | method
  | property
deriving DecidableEq, Inhabited

def ElementKind.name : ElementKind → String
  | .class => "class"
  | .interface => "interface"
  | .trait => "trait"
  | .function => "function"
  | .constant => "constant"
  | .method => "method"
  | .property => "property"

def ElementKind.ofName? : String → Option ElementKind
  | "class" => some .class
  | "interface" => some .interface
  | "trait" => some .trait
  | "function" => some .function
  | "constant" => some .constant
  | "method" => some .method
  | "property" => some .property
  | _ => none

/-- Whether elements of the kind own members. -/
def ElementKind.isContainer : ElementKind → Bool
  | .class => true
  | .interface => true
  | .trait => true
  | _ => false

inductive Visibility
  | «public»
  | «protected»
  | «private»
deriving DecidableEq

instance : Inhabited Visibility := ⟨.public⟩

def Visibility.name : Visibility → String
  | .public => "public"
  | .protected => "protected"
  | .private => "private"

/-- The visibility with exactly this keyword. -/
def Visibility.ofName? : String → Option Visibility
  | "public" => some .public
  | "protected" => some .protected
  | "private" => some .private
  | _ => none

/-- The visibility of a modifier, in capital or small letters. -/
def Visibility.ofModifier? (word : String) : Option Visibility :=
  Visibility.ofName? (Text.asciiLower word)

@[simp] theorem ElementKind.ofName?_name (k : ElementKind) : ofName? k.name = some k := by
  cases k <;> rfl

@[simp] theorem Visibility.ofName?_name (v : Visibility) : ofName? v.name = some v := by
  cases v <;> rfl

end ApiDoc
