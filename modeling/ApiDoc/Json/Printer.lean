import ApiDoc.Json.Basic
import ApiDoc.Text.Decimal

/-!
# Writing JSON

`Json.compact` writes a value on one line without blanks; `Json.pretty` puts every item and field on
a line of its own, two blanks deeper than what contains it. Both escape quotes, backslashes and
control characters and write every other character as it is. A flawed part is written as null.
-/

namespace ApiDoc.Json

def escape (c : Char) : List Char :=
  if c == '"' then ['\\', '"']
  else if c == '\\' then ['\\', '\\']
  else if c == '\n' then ['\\', 'n']
  else if c == '\r' then ['\\', 'r']
  else if c == '\t' then ['\\', 't']
  else if c.toNat == 8 then ['\\', 'b']
  else if c.toNat == 12 then ['\\', 'f']
  else if c.toNat < 32 then
    ['\\', 'u', '0', '0', Nat.digitChar (c.toNat / 16), Nat.digitChar (c.toNat % 16)]
  else [c]

def quote (s : String) : List Char := '"' :: (s.toList.flatMap escape ++ ['"'])

def intText (n : Int) : List Char :=
  if n < 0 then '-' :: (Text.ofNat n.natAbs).toList else (Text.ofNat n.natAbs).toList

/-- The text of a number by its digits and its power of ten. -/
def decimalText (d : Decimal) : List Char :=
  (if d.negative then ['-'] else []) ++ (Text.ofNat d.digits).toList ++ 'e' :: intText d.power

/-- The text of a value without parts. -/
def leafText : Json → List Char
  | .null => "null".toList
  | .bool true => "true".toList
  | .bool false => "false".toList
  | .int n => intText n
  | .real number => decimalText number
  | .str s => quote s
  | .arr _ => []
  | .obj _ => []
  | .flawed => "null".toList

mutual

/-- A value on one line, in front of the text that follows it. -/
def compactChars : Json → List Char → List Char
  | .arr items, tail => '[' :: compactItems true items (']' :: tail)
  | .obj fields, tail => '{' :: compactFields true fields ('}' :: tail)
  | other, tail => leafText other ++ tail

def compactItems (first : Bool) : List Json → List Char → List Char
  | [], tail => tail
  | item :: rest, tail =>
    let text := compactChars item (compactItems false rest tail)
    if first then text else ',' :: text

def compactFields (first : Bool) : List (String × Json) → List Char → List Char
  | [], tail => tail
  | (key, value) :: rest, tail =>
    let text := quote key ++ ':' :: compactChars value (compactFields false rest tail)
    if first then text else ',' :: text

end

def compact (j : Json) : String := String.ofList (compactChars j [])

/-- A new line with its indentation. -/
def newline (depth : Nat) : List Char := '\n' :: List.replicate (2 * depth) ' '

mutual

/-- A value over several lines, in front of the text that follows it. -/
def prettyChars (depth : Nat) : Json → List Char → List Char
  | .arr [], tail => '[' :: ']' :: tail
  | .arr items, tail =>
    '[' :: prettyItems (depth + 1) true items (newline depth ++ ']' :: tail)
  | .obj [], tail => '{' :: '}' :: tail
  | .obj fields, tail =>
    '{' :: prettyFields (depth + 1) true fields (newline depth ++ '}' :: tail)
  | other, tail => leafText other ++ tail

def prettyItems (depth : Nat) (first : Bool) : List Json → List Char → List Char
  | [], tail => tail
  | item :: rest, tail =>
    let text := newline depth ++ prettyChars depth item (prettyItems depth false rest tail)
    if first then text else ',' :: text

def prettyFields (depth : Nat) (first : Bool) : List (String × Json) → List Char → List Char
  | [], tail => tail
  | (key, value) :: rest, tail =>
    let text := newline depth ++ quote key ++ ':' :: ' ' ::
      prettyChars depth value (prettyFields depth false rest tail)
    if first then text else ',' :: text

end

def pretty (j : Json) : String := String.ofList (prettyChars 0 j [])

end ApiDoc.Json
