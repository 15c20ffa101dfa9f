/-!
# Rounding to significant bits

`roundSignificant` takes a non-negative rational number to the nearest one whose significand has 53 bits, a tie going
to the even significand; `roundDown` and `roundUp` give the two around it.  The exponent is not bounded: the quantities
that are rounded here lie far inside the range where a bound would be felt.
-/

namespace SourceIndex.Numeric

/-- The number of bits of a significand. -/
def significantBits : Nat := 53

/-- The power of two with the given exponent. -/
def pow2 : Int → Rat
  | .ofNat n => (Nat.pow 2 n : Rat)
  | .negSucc n => 1 / (Nat.pow 2 (n + 1) : Rat)

/-- The exponent of the greatest power of two that is at most `q`, for positive `q`. -/
def binaryExponent (q : Rat) : Int :=
  if 1 ≤ q then (q.floor.toNat.log2 : Int) else -(((1 / q).ceil.toNat - 1).log2 + 1 : Int)

/-- The nearest integer, and the even one of two that are equally near. -/
def roundHalfEven (q : Rat) : Int :=
  let below := q.floor
  let rest := q - below
  if rest < 1 / 2 then below
  else if 1 / 2 < rest then below + 1
  else if below % 2 = 0 then below else below + 1

/-- The unit of the last place of a positive number. -/
def lastPlace (q : Rat) : Rat := pow2 (binaryExponent q - (significantBits - 1 : Nat))

/-- The nearest number whose significand fits into the significant bits; 0 if `q` is not positive. -/
def roundSignificant (q : Rat) : Rat :=
  if 0 < q then (roundHalfEven (q / lastPlace q) : Rat) * lastPlace q else 0

/-- The greatest number with such a significand that is at most `q`; 0 if `q` is not positive. -/
def roundDown (q : Rat) : Rat := if 0 < q then (q / lastPlace q).floor * lastPlace q else 0

/-- The least number with such a significand that is at least `q`; 0 if `q` is not positive. -/
def roundUp (q : Rat) : Rat := if 0 < q then (q / lastPlace q).ceil * lastPlace q else 0

@[simp] theorem roundSignificant_zero : roundSignificant 0 = 0 := by simp [roundSignificant]

example : binaryExponent 1 = 0 ∧ binaryExponent (1 / 2) = -1 ∧ binaryExponent (1 / 3) = -2 ∧ binaryExponent 7 = 2 := by
  decide +kernel

example : roundDown (2 ^ 53 + 3) = 2 ^ 53 + 2 ∧ roundUp (2 ^ 53 + 3) = 2 ^ 53 + 4 ∧ roundUp 3 = 3 := by decide +kernel

example : roundSignificant (2 ^ 53 + 1) = 2 ^ 53 ∧ roundSignificant (2 ^ 53 + 3) = 2 ^ 53 + 4 := by decide +kernel

end SourceIndex.Numeric
