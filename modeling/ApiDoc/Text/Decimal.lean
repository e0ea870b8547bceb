/-!
# Decimal numbers in text

Reading an unsigned number of a fixed width: one optional plus sign, at least one digit and nothing
else, and a value that fits the width.
-/

namespace ApiDoc.Text

/-- The value of a list of decimal digits, continuing from a value. -/
def digitsValue (value : Nat) : List Char → Option Nat
  | [] => some value
  | c :: cs =>
    if c.isDigit then digitsValue (10 * value + (c.toNat - '0'.toNat)) cs else none

/-- The number the digits denote, if there is at least one and it fits in `width` bits. -/
def unsigned? (width : Nat) (cs : List Char) : Option Nat :=
  let digits :=
    match cs with
    | '+' :: rest => rest
    | _ => cs
  if digits.isEmpty then none
  else (digitsValue 0 digits).filter (· < Nat.pow 2 width)

/-- The decimal digits of a number. -/
def ofNat (n : Nat) : String := String.ofList (Nat.toDigits 10 n)

end ApiDoc.Text
