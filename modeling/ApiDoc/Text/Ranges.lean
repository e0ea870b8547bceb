/-!
# Ranges of code points

Classes of characters beyond ASCII are listed as closed ranges of code points in increasing order.
-/

namespace ApiDoc.Text

/-- Whether a code point lies in one of the ranges, which are in increasing order. -/
def inRanges (n : Nat) : List (Nat × Nat) → Bool
  | [] => false
  | (lo, hi) :: rest => if n < lo then false else if n ≤ hi then true else inRanges n rest

end ApiDoc.Text
