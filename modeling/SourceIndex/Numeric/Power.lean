import SourceIndex.Numeric.Binary64

/-!
# Powers with a binary exponent

A power whose exponent is a binary fraction, such as the binary64 number nearest to 1.8, is a chain of square roots:
the exponent 0.b₁b₂b₃… gives the square root of the base, if b₁ is set, times the power with the exponent 0.b₂b₃….
The chain is computed with 128 binary places, each root rounded down.  Each step grows with the base and never falls
below one for a base that is at least one, hence so does the power.

A platform's own power function gives one of the two binary64 numbers around the exact power, and not always the
nearer one.  The platform is asked which one it gives; whatever it answers, the result is one of the two.
-/

namespace SourceIndex.Numeric

/-- The unit of the fixed-point numbers that the chain computes with. -/
def unit : Nat := Nat.pow 2 128

/-- The power of a base whose exponent has the given binary places after the point, in units of `unit`. -/
def fractionalPower (base : Nat) : List Bool → Nat
  | [] => unit
  | bit :: bits => ((if bit then base else 1) * fractionalPower base bits * unit).sqrt

/-- The lowest `count` bits of a number, the highest of them first. -/
def binaryPlaces (n count : Nat) : List Bool := (List.range count).reverse.map n.testBit

/-- The places after the point of the binary64 number nearest to 1.8, whose integer part is 1. -/
def placesOfOnePointEight : List Bool := binaryPlaces 3602879701896397 52

/-- The base to the power of 1.8, by the chain of square roots. -/
def chainPower (base : Nat) : Rat := (base * fractionalPower base placesOfOnePointEight : Nat) / (unit : Rat)

/-- The value of a positive machine number, unless it is infinite, undefined or too small to have 53 bits. -/
def machineValue? (x : Float) : Option Rat :=
  let bits := x.toBits.toNat
  let exponent : Nat := bits / Nat.pow 2 52
  if 0 < exponent ∧ exponent < 2047 then
    some (((Nat.pow 2 52 + bits % Nat.pow 2 52 : Nat) : Rat) * pow2 ((exponent : Int) - 1075))
  else none

/-- Of the two numbers around `q` the one that `answer` lies at or beyond, and the nearer one if it lies at neither. -/
def chooseRounding (q : Rat) (answer : Option Rat) : Rat :=
  match answer with
  | some a => if roundUp q ≤ a then roundUp q else if a ≤ roundDown q then roundDown q else roundSignificant q
  | none => roundSignificant q

/-- The base to the power of 1.8, rounded as the platform does. -/
def powOnePointEight (base : Nat) : Binary64 :=
  .finite (chooseRounding (chainPower base) (machineValue? (Float.pow (Float.ofNat base) 1.8)))

theorem chooseRounding_zero (answer : Option Rat) : chooseRounding 0 answer = 0 := by
  cases answer <;> simp [chooseRounding, roundUp, roundDown]

example : machineValue? 1.5 = some (3 / 2) ∧ machineValue? 0 = none := by decide +kernel

end SourceIndex.Numeric
