import ApiDoc.Json.Basic
import ApiDoc.Json.Real
import ApiDoc.Text.Hex

/-!
# Reading JSON

`Json.parse?` reads one value that fills the whole text. Objects and arrays may be nested
`depthLimit` deep, a quoted text holds no bare control character and no half of a surrogate pair,
and a number has no needless zeros and does not exceed the largest 64-bit floating-point number.

`Json.skim?` is content with the form of the text: deeper objects and arrays, halves of surrogate
pairs and numbers that are too large are flawed parts of the value. An object one of whose keys
cannot be read is flawed as a whole.
-/

namespace ApiDoc.Json

/-- How deep arrays and objects may be nested. -/
def depthLimit : Nat := 127

/-- The characters that may stand between two parts of a value. -/
def isGap (c : Char) : Bool := c == ' ' || c == '\n' || c == '\t' || c == '\r'

def skipGap (cs : List Char) : List Char := cs.dropWhile isGap

def word? (word cs : List Char) : Option (List Char) :=
  if word.isPrefixOf cs then some (cs.drop word.length) else none

/-! ### Numbers -/

/-- The digits at the start of a text, and the rest. -/
def digits (cs : List Char) : List Char × List Char := cs.span Char.isDigit

/-- The fraction at the start of a text: its digits, none if there is no fraction. -/
def fraction? : List Char → Option (List Char × List Char)
  | '.' :: cs =>
    match digits cs with
    | ([], _) => none
    | (ds, rest) => some (ds, rest)
  | cs => some ([], cs)

def exponent? : List Char → Option (Option Int × List Char)
  | c :: cs =>
    if c == 'e' || c == 'E' then
      let (negative, body) :=
        match cs with
        | '+' :: r => (false, r)
        | '-' :: r => (true, r)
        | r => (false, r)
      match digits body with
      | ([], _) => none
      | (ds, rest) =>
        let size : Nat := (Text.digitsValue 0 ds).getD 0
        some (some (if negative then -(size : Int) else size), rest)
    else some (none, c :: cs)
  | [] => some (none, [])

/-- The integer part at the start of a text: a zero, or digits that do not start with one. -/
def whole? (cs : List Char) : Option (List Char × List Char) :=
  match digits cs with
  | ([], _) => none
  | ('0' :: d :: ds, rest) => if d.isDigit then none else some ('0' :: d :: ds, rest)
  | (ds, rest) => some (ds, rest)

def number? (cs : List Char) : Option (Json × List Char) := do
  let (negative, body) :=
    match cs with
    | '-' :: rest => (true, rest)
    | rest => (false, rest)
  let (whole, rest) ← whole? body
  let (frac, rest) ← fraction? rest
  let (power, rest) ← exponent? rest
  let size := (Text.digitsValue 0 whole).getD 0
  let fits := if negative then 0 < size && size ≤ Nat.pow 2 63 else size < digitsBound
  if frac.isEmpty && power.isNone && fits then
    some (.int (if negative then -(size : Int) else size), rest)
  else
    match real? whole frac (power.getD 0) with
    | some number => some (.real (number.decimal negative), rest)
    | none => some (.flawed, rest)

/-! ### Quoted texts -/

def hex4? : List Char → Option (Nat × List Char)
  | a :: b :: c :: d :: rest => do
    let a ← Text.hexDigit? a
    let b ← Text.hexDigit? b
    let c ← Text.hexDigit? c
    let d ← Text.hexDigit? d
    some (((a * 16 + b) * 16 + c) * 16 + d, rest)
  | _ => none

/-- The character written by a numeric escape after its letter, in one or two halves; none if it is
half of a pair without the other half. -/
def codeEscape? (cs : List Char) : Option (Option Char × List Char) := do
  let (unit, rest) ← hex4? cs
  if 0xD800 ≤ unit && unit < 0xDC00 then
    match rest with
    | '\\' :: 'u' :: more =>
      let (low, behind) ← hex4? more
      if 0xDC00 ≤ low && low < 0xE000 then
        some (some (Char.ofNat (0x10000 + (unit - 0xD800) * 0x400 + (low - 0xDC00))), behind)
      else some (none, rest)
    | _ => some (none, rest)
  else if 0xDC00 ≤ unit && unit < 0xE000 then some (none, rest)
  else some (some (Char.ofNat unit), rest)

/-- The character written by an escape after its backslash. -/
def escape? : List Char → Option (Option Char × List Char)
  | '"' :: rest => some ('"', rest)
  | '\\' :: rest => some ('\\', rest)
  | '/' :: rest => some ('/', rest)
  | 'b' :: rest => some (Char.ofNat 8, rest)
  | 'f' :: rest => some (Char.ofNat 12, rest)
  | 'n' :: rest => some ('\n', rest)
  | 'r' :: rest => some ('\r', rest)
  | 't' :: rest => some ('\t', rest)
  | 'u' :: rest => codeEscape? rest
  | _ => none

/-- The text up to the closing quote, none if a character of it cannot be read; every step uses up
at least one character. -/
def unquote? : Nat → List Char → Option (Option (List Char) × List Char)
  | 0, _ => none
  | _ + 1, [] => none
  | _ + 1, '"' :: rest => some (some [], rest)
  | fuel + 1, '\\' :: rest => do
    let (c?, rest) ← escape? rest
    let (text?, rest) ← unquote? fuel rest
    some (c?.bind fun c => text?.map (c :: ·), rest)
  | fuel + 1, c :: rest =>
    if c.toNat < 32 then none
    else do
      let (text?, rest) ← unquote? fuel rest
      some (text?.map (c :: ·), rest)

/-- The text after an opening quote, none if it cannot be read. -/
def string? (cs : List Char) : Option (Option String × List Char) :=
  (unquote? (cs.length + 1) cs).map fun (text?, rest) => (text?.map String.ofList, rest)

/-! ### Values -/

def textValue : Option String → Json
  | some s => .str s
  | none => .flawed

/-- Fields as a value, none of whose keys may be unreadable. -/
def fieldsValue (fields : List (Option String × Json)) : Json :=
  match fields.mapM fun f => f.1.map fun key => (key, f.2) with
  | some fields => .obj fields
  | none => .flawed

/-- An array or object where `depth` more may be nested. -/
def atDepth (depth : Nat) (value : Json) : Json := if depth = 0 then .flawed else value

mutual

/-- The value at the start of a text, where `depth` arrays and objects may be nested. -/
def value? (depth : Nat) : Nat → List Char → Option (Json × List Char)
  | 0, _ => none
  | fuel + 1, cs =>
    match skipGap cs with
    | '"' :: rest => (string? rest).map fun (s?, rest) => (textValue s?, rest)
    | '[' :: rest =>
      match skipGap rest with
      | ']' :: rest => some (atDepth depth (.arr []), rest)
      | rest => (items? (depth - 1) fuel rest).map fun (items, rest) =>
          (atDepth depth (.arr items), rest)
    | '{' :: rest =>
      match skipGap rest with
      | '}' :: rest => some (atDepth depth (.obj []), rest)
      | rest => (fields? (depth - 1) fuel rest).map fun (fields, rest) =>
          (atDepth depth (fieldsValue fields), rest)
    | 'n' :: rest => (word? "ull".toList rest).map fun rest => (.null, rest)
    | 't' :: rest => (word? "rue".toList rest).map fun rest => (.bool true, rest)
    | 'f' :: rest => (word? "alse".toList rest).map fun rest => (.bool false, rest)
    | other => number? other

def items? (depth : Nat) : Nat → List Char → Option (List Json × List Char)
  | 0, _ => none
  | fuel + 1, cs => do
    let (item, rest) ← value? depth fuel cs
    match skipGap rest with
    | ']' :: rest => some ([item], rest)
    | ',' :: rest =>
      let (items, rest) ← items? depth fuel rest
      some (item :: items, rest)
    | _ => none

def fields? (depth : Nat) : Nat → List Char → Option (List (Option String × Json) × List Char)
  | 0, _ => none
  | fuel + 1, cs =>
    match skipGap cs with
    | '"' :: rest => do
      let (key, rest) ← string? rest
      match skipGap rest with
      | ':' :: rest =>
        let (value, rest) ← value? depth fuel rest
        match skipGap rest with
        | '}' :: rest => some ([(key, value)], rest)
        | ',' :: rest =>
          let (fields, rest) ← fields? depth fuel rest
          some ((key, value) :: fields, rest)
        | _ => none
      | _ => none
    | _ => none

end

/-- The value that fills a text, with the flawed parts it may have. -/
def skim? (s : String) : Option Json := do
  let cs := s.toList
  let (value, rest) ← value? depthLimit (2 * cs.length + 2) cs
  if (skipGap rest).isEmpty then some value else none

def parse? (s : String) : Option Json := (skim? s).filter isSound

end ApiDoc.Json
