/-!
# JSON values

The values of the data format in which configuration, cache entries and reports are written. An
integer that fits in 64 bits is a number of its own; every other number is held by its decimal
digits. The fields of an object stay in the order in which they were written, and a key may be there
more than once: `Json.settle` keeps the last of them, and `Json.fieldsNamed` lets a reader refuse
such an object. `Json.flawed` takes the place of a part of a text that has the form of a value but
denotes none; a reader that does not need the part may pass over it.
-/

namespace ApiDoc

/-- A number that is no integer: decimal digits times a power of ten. -/
structure Json.Decimal where
  negative : Bool
  digits : Nat
  power : Int
deriving DecidableEq, Inhabited

/-- A JSON value. -/
inductive Json
  | null
  | bool (b : Bool)
  | int (n : Int)
  | real (number : Json.Decimal)
  | str (s : String)
  | arr (items : List Json)
  | obj (fields : List (String × Json))
  | flawed
deriving Inhabited

namespace Json

/-- The values of all fields with a key, in order. -/
def fieldsNamed (key : String) (fields : List (String × Json)) : List Json :=
  fields.filterMap fun f => if f.1 = key then some f.2 else none

/-- The last value under a key of an object. -/
def get? (j : Json) (key : String) : Option Json :=
  match j with
  | .obj fields => (fieldsNamed key fields).getLast?
  | _ => none

def nat (n : Nat) : Json := .int n

def texts (items : List String) : Json := .arr (items.map .str)

def textOrNull : Option String → Json
  | some s => .str s
  | none => .null

/-- Fields without those whose key comes again. -/
def lastOfEach : List (String × Json) → List (String × Json)
  | [] => []
  | (key, value) :: rest =>
    if rest.any (fun f => f.1 = key) then lastOfEach rest else (key, value) :: lastOfEach rest

mutual

/-- The value in which every object keeps only the last field of each key. -/
def settle : Json → Json
  | .arr items => .arr (settleItems items)
  | .obj fields => .obj (lastOfEach (settleFields fields))
  | other => other

def settleItems : List Json → List Json
  | [] => []
  | item :: rest => settle item :: settleItems rest

def settleFields : List (String × Json) → List (String × Json)
  | [] => []
  | (key, value) :: rest => (key, settle value) :: settleFields rest

end

mutual

/-- Whether no part of the value is flawed. -/
def isSound : Json → Bool
  | .flawed => false
  | .arr items => itemsSound items
  | .obj fields => fieldsSound fields
  | _ => true

def itemsSound : List Json → Bool
  | [] => true
  | item :: rest => isSound item && itemsSound rest

def fieldsSound : List (String × Json) → Bool
  | [] => true
  | (_, value) :: rest => isSound value && fieldsSound rest

end

mutual

/-- The value with every text in it changed by a function, which is also given the key of the field
that holds the text, if it is in one. -/
def mapTexts (f : Option String → String → String) (key : Option String) : Json → Json
  | .str s => .str (f key s)
  | .arr items => .arr (mapTextsItems f items)
  | .obj fields => .obj (mapTextsFields f fields)
  | other => other

def mapTextsItems (f : Option String → String → String) : List Json → List Json
  | [] => []
  | item :: rest => mapTexts f none item :: mapTextsItems f rest

def mapTextsFields (f : Option String → String → String) :
    List (String × Json) → List (String × Json)
  | [] => []
  | (key, value) :: rest => (key, mapTexts f (some key) value) :: mapTextsFields f rest

end

end Json

end ApiDoc
