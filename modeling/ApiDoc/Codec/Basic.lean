import ApiDoc.Json.Basic
import ApiDoc.NameMap

/-!
# Reading and writing records as JSON

The conventions all records follow. A record is written as an object, and is read from one or from
the list of its values in the order of its fields. A required field must be there once; an optional
one may be missing and then has its default. Fields nobody asks for are ignored, a field that is
asked for and comes twice is refused. A map is an object whose last value under a key counts. Fields
that are left out when they hold nothing are written by `whenSome`, `whenNonempty` and
`whenEntries`.
-/

namespace ApiDoc.Codec

/-- Reading a value, which fails on a value of another shape. -/
abbrev Decoder (α : Type) := Json → Option α

variable {α : Type}

/-- The numbers a field of 32 bits can hold. -/
def wordBound : Nat := Nat.pow 2 32

def text : Decoder String
  | .str s => some s
  | _ => none

def boolean : Decoder Bool
  | .bool b => some b
  | _ => none

/-- A number of 32 bits. -/
def word : Decoder Nat
  | .int n => if 0 ≤ n ∧ n < wordBound then some n.toNat else none
  | _ => none

def listOf (decode : Decoder α) : Decoder (List α)
  | .arr items => items.mapM decode
  | _ => none

def mapOf (decode : Decoder α) : Decoder (NameMap α)
  | .obj fields =>
    (fields.mapM fun f => (decode f.2).map fun v => (f.1, v)).map NameMap.ofList
  | _ => none

def orNull (decode : Decoder α) : Decoder (Option α)
  | .null => some none
  | other => (decode other).map some

/-- How closely a value has to keep to its form. What stands in the body of a tag, and the fields an
element has in common with all others, are read loosely; but there no part may be flawed, whether it
is needed or not. -/
inductive Closeness
  | strict
  | loose
deriving DecidableEq

/-- Whether a value stands for nothing: null, and loosely also an object without fields. -/
def isNothing : Closeness → Json → Bool
  | _, .null => true
  | .loose, .obj [] => true
  | _, _ => false

/-- One of a closed list of words: the word itself, or an object with the word as its only key and
nothing under it. -/
def wordOf (c : Closeness) (ofName? : String → Option α) : Decoder α
  | .str s => ofName? s
  | .obj [(s, value)] => if isNothing c value then ofName? s else none
  | _ => none

/-- Whether all fields with other keys than the given ones are free of flaws. -/
def othersSound (keys : List String) (fields : List (String × Json)) : Bool :=
  fields.all fun f => keys.contains f.1 || f.2.isSound

def fields : Decoder (List (String × Json))
  | .obj fields => some fields
  | _ => none

/-- The fields of a record with the given keys: those of an object, or the values of a list under
the keys in order. A list holds at least the first `least` values and may end anywhere behind them.
-/
def record (keys : List String) (least : Nat) : Decoder (List (String × Json))
  | .obj fields => some fields
  | .arr values =>
    if least ≤ values.length ∧ values.length ≤ keys.length then some (keys.zip values) else none
  | _ => none

def required (fields : List (String × Json)) (key : String) (decode : Decoder α) : Option α :=
  match Json.fieldsNamed key fields with
  | [value] => decode value
  | _ => none

def optional (fields : List (String × Json)) (key : String) (default : α) (decode : Decoder α) :
    Option α :=
  match Json.fieldsNamed key fields with
  | [] => some default
  | [value] => decode value
  | _ => none

/-! ### Writing -/

def ofList (encode : α → Json) (items : List α) : Json := .arr (items.map encode)

/-- A map, in key order. -/
def ofMap (encode : α → Json) (m : NameMap α) : Json :=
  .obj (m.entries.map fun e => (e.1, encode e.2))

/-- A field that is left out when there is no value. -/
def whenSome (key : String) (encode : α → Json) : Option α → List (String × Json)
  | some a => [(key, encode a)]
  | none => []

/-- A field that is left out when the list is empty. -/
def whenNonempty (key : String) (encode : α → Json) (items : List α) : List (String × Json) :=
  if items.isEmpty then [] else [(key, ofList encode items)]

/-- A field that is left out when the map is empty. -/
def whenEntries (key : String) (encode : α → Json) (m : NameMap α) : List (String × Json) :=
  if m.isEmpty then [] else [(key, ofMap encode m)]

end ApiDoc.Codec
