import ApiDoc.NameMap
import ApiDoc.Reference

/-!
# Tags

A tag is one labelled line of a doc comment. Its body has one of five shapes, which the name of the
tag decides. The tags of an element are grouped by name; within a name they stay in the order in
which they were written.
-/

namespace ApiDoc

/-- What a tag carries besides its description. -/
inductive TagBody
  | plain
  | typed (types : List String)
  | typedVariable (types : List String) (variableName : String)
  | reference (ref : Reference)
  | magicMethod (name : String) (returnTypes arguments : List String) (isStatic : Bool)
deriving DecidableEq, Inhabited

structure Tag where
  name : String
  description : String := ""
  body : TagBody := .plain
deriving DecidableEq, Inhabited

namespace Tag

/-- The names of the tags that refer to another element. -/
def referenceNames : List String := ["see", "uses", "used-by", "covers"]

def reference? (t : Tag) : Option Reference :=
  match t.body with
  | .reference r => some r
  | _ => none

/-- The tag with its reference changed; other tags stay as they are. -/
def mapReference (f : Reference → Reference) (t : Tag) : Tag :=
  match t.body with
  | .reference r => { t with body := .reference (f r) }
  | _ => t

def types (t : Tag) : List String :=
  match t.body with
  | .typed types => types
  | .typedVariable types _ => types
  | .magicMethod _ returnTypes _ _ => returnTypes
  | .plain => []
  | .reference _ => []

end Tag

/-- The tags of one element, grouped by name. -/
structure Tags where
  byName : NameMap (List Tag) := .empty
deriving DecidableEq, Inhabited

namespace Tags

def empty : Tags := {}

def get (tags : Tags) (name : String) : List Tag := (tags.byName.get? name).getD []

/-- The tags with one more at the end of its name. -/
def push (tags : Tags) (tag : Tag) : Tags :=
  ⟨tags.byName.insert tag.name (tags.get tag.name ++ [tag])⟩

def contains (tags : Tags) (name : String) : Bool := !(tags.get name).isEmpty

def erase (tags : Tags) (name : String) : Tags := ⟨tags.byName.erase name⟩

def names (tags : Tags) : List String := tags.byName.keys

/-- All tags, name by name. -/
def all (tags : Tags) : List Tag := tags.byName.values.flatten

def count (tags : Tags) : Nat := tags.all.length

/-- The tags of one name changed; nothing happens if the name has no entry. -/
def modify (tags : Tags) (name : String) (f : List Tag → List Tag) : Tags :=
  ⟨tags.byName.modify name f⟩

/-- Every tag changed by a function that does not change its name. -/
def map (f : Tag → Tag) (tags : Tags) : Tags := ⟨tags.byName.map (·.map f)⟩

/-- The references of all tags, in order. -/
def references (tags : Tags) : List Reference := tags.all.filterMap Tag.reference?

end Tags

end ApiDoc
