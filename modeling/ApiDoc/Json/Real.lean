import ApiDoc.Json.Basic
import ApiDoc.Text.Decimal

/-!
# Numbers that are no integers

A number that is no 64-bit integer is held as a 64-bit floating-point number, without its sign a
`Binary`. `real?` computes it from the digits and the exponent in a text: as many leading digits as
fit in 64 bits are kept as one number, which is then multiplied by a power of ten or divided by
some. Every step gives the nearest floating-point number, so the result may be the neighbour of the
number that is nearest to the text. A number beyond the largest one is refused.

`Binary.decimal` goes the other way: the fewest decimal digits to which no other floating-point
number is nearer.
-/

namespace ApiDoc.Json

/-- A floating-point number that is not negative: a whole number times a power of two. -/
structure Binary where
  size : Nat
  exponent : Int
deriving DecidableEq, Inhabited

/-! ### Fractions -/

/-- The whole number nearest to a fraction; of two that are equally near, the even one. -/
def roundQuotient (num den : Nat) : Nat :=
  let whole := num / den
  let left := num % den
  if 2 * left < den || (2 * left == den && whole % 2 == 0) then whole else whole + 1

def powerFraction (base : Nat) (power : Int) : Nat × Nat :=
  (Nat.pow base power.toNat, Nat.pow base (-power).toNat)

/-- How many times a power of a base goes into a fraction, as a fraction. -/
def inUnits (base : Nat) (power : Int) (num den : Nat) : Nat × Nat :=
  let (up, down) := powerFraction base power
  (num * down, den * up)

namespace Binary

/-- The number of binary digits a number can have. -/
def width : Nat := 53

def leastExponent : Int := -1074

def greatestExponent : Int := 971

def zero : Binary := ⟨0, leastExponent⟩

/-- Whether the number is not too large. -/
def isFinite (b : Binary) : Bool := b.exponent ≤ greatestExponent

def fraction (b : Binary) : Nat × Nat :=
  let (up, down) := powerFraction 2 b.exponent
  (b.size * up, down)

/-- The exponent for a positive fraction: the one that leaves as many digits before the point as a
number can have, if it is not too small. -/
def exponentOf (num den : Nat) : Int :=
  let guess : Int := num.log2 - den.log2 - (width - 1 : Nat)
  let (up, down) := inUnits 2 guess num den
  max leastExponent (if up < Nat.pow 2 (width - 1) * down then guess - 1 else guess)

def nearest (num den : Nat) : Binary :=
  if num = 0 then zero
  else
    let exponent := exponentOf num den
    let (up, down) := inUnits 2 exponent num den
    let size := roundQuotient up down
    if size = Nat.pow 2 width then ⟨Nat.pow 2 (width - 1), exponent + 1⟩ else ⟨size, exponent⟩

/-- The number nearest to a product. -/
def times (a b : Binary) : Binary :=
  let (num, den) := a.fraction
  let (num', den') := b.fraction
  nearest (num * num') (den * den')

/-- The number nearest to a quotient. -/
def dividedBy (a b : Binary) : Binary :=
  let (num, den) := a.fraction
  let (num', den') := b.fraction
  nearest (num * den') (den * num')

/-- The number nearest to a power of ten. -/
def tenPower (power : Nat) : Binary := nearest (Nat.pow 10 power) 1

/-- The largest power of ten that is a single factor. -/
def largestPower : Nat := 308

/-- A number divided by a power of ten, in several steps if the power is large. -/
def overTen (b : Binary) (power : Nat) : Binary :=
  if power ≤ largestPower then b.dividedBy (tenPower power)
  else if b.size = 0 then b
  else overTen (b.dividedBy (tenPower largestPower)) (power - largestPower)
termination_by power
decreasing_by simp [largestPower] at *; omega

/-- The number of digits before the point, or the number of zeros behind it as a negative number. -/
def magnitude (num den : Nat) : Int :=
  if den ≤ num then (Nat.toDigits 10 (num / den)).length
  else 1 - ((Nat.toDigits 10 ((den - 1) / num)).length : Int)

/-- A number with a given count of decimal digits, if they suffice to tell it from all others: the
digits and the power of ten. -/
def digits? (b : Binary) (count : Nat) : Option (Nat × Int) :=
  let (num, den) := b.fraction
  let power := magnitude num den - count
  let (up, down) := inUnits 10 power num den
  let digits := roundQuotient up down
  let (ten, tenth) := powerFraction 10 power
  if nearest (digits * ten) tenth = b then some (digits, power) else none

/-- The fewest decimal digits that suffice to tell a number from all others. -/
def decimal (negative : Bool) (b : Binary) : Decimal :=
  if b.size = 0 then { negative := negative, digits := 0, power := 0 }
  else
    let (digits, power) := ((List.range 17).findSome? fun n => b.digits? (n + 1)).getD (0, 0)
    { negative := negative, digits := digits, power := power }

end Binary

/-! ### Reading -/

/-- The least number for which 64 bits do not suffice. -/
def digitsBound : Nat := Nat.pow 2 64

/-- The digits of a text that can be kept behind a value, as one value, and the digits left over. -/
def keepDigits (value : Nat) : List Char → Nat × List Char
  | [] => (value, [])
  | c :: cs =>
    let next := 10 * value + (c.toNat - '0'.toNat)
    if next < digitsBound then keepDigits next cs else (value, c :: cs)

/-- Some digits times a power of ten, unless it is too large. -/
def scaled? (digits : Nat) (power : Int) : Option Binary :=
  let kept := Binary.nearest digits 1
  if kept.size = 0 then some kept
  else if power < 0 then some (kept.overTen (-power).toNat)
  else if power ≤ Binary.largestPower then
    some (kept.times (Binary.tenPower power.toNat)) |>.filter Binary.isFinite
  else none

/-- The number given by the digits before and after its point and its exponent, unless it is too
large. -/
def real? (whole fraction : List Char) (exponent : Int) : Option Binary :=
  let (value, dropped) := keepDigits 0 whole
  let (digits, unused) := keepDigits value fraction
  let kept := fraction.length - unused.length
  scaled? digits (dropped.length - kept + exponent)

end ApiDoc.Json
