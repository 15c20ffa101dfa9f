import SourceIndex.Numeric.Rounding

/-!
# Binary64 arithmetic without sign

The numbers of binary64 arithmetic that are not negative, with infinity and the undefined result.  A result is the
exact one rounded once (`Numeric.roundSignificant`); a division by zero is infinite, or undefined if zero itself is
divided; an undefined number is neither less nor greater than any other.
-/

namespace SourceIndex

/-- A number that is not negative, as binary64 arithmetic has it. -/
inductive Binary64 where
  | undefined
  | infinite
  | finite (value : Rat)

namespace Binary64

open Numeric (roundSignificant)

/-- The number nearest to a rational number. -/
def ofRat (q : Rat) : Binary64 := finite (roundSignificant q)

/-- The number nearest to a natural number. -/
def ofNat (n : Nat) : Binary64 := ofRat n

/-- The sum. -/
def add : Binary64 → Binary64 → Binary64
  | undefined, _ => undefined
  | _, undefined => undefined
  | infinite, _ => infinite
  | _, infinite => infinite
  | finite a, finite b => ofRat (a + b)

/-- The product. -/
def mul : Binary64 → Binary64 → Binary64
  | undefined, _ => undefined
  | _, undefined => undefined
  | infinite, finite b => if b = 0 then undefined else infinite
  | finite a, infinite => if a = 0 then undefined else infinite
  | infinite, infinite => infinite
  | finite a, finite b => ofRat (a * b)

/-- The quotient. -/
def div : Binary64 → Binary64 → Binary64
  | undefined, _ => undefined
  | _, undefined => undefined
  | infinite, infinite => undefined
  | infinite, finite _ => infinite
  | finite _, infinite => finite 0
  | finite a, finite b => if b = 0 then (if a = 0 then undefined else infinite) else ofRat (a / b)

instance : Add Binary64 := ⟨add⟩
instance : Mul Binary64 := ⟨mul⟩
instance : Div Binary64 := ⟨div⟩

/-- Whether the first number is less than the second. -/
def less : Binary64 → Binary64 → Bool
  | finite a, finite b => a < b
  | finite _, infinite => true
  | _, _ => false

/-- The integer part, at most `limit`; 0 for the undefined number. -/
def truncate (limit : Nat) : Binary64 → Nat
  | undefined => 0
  | infinite => limit
  | finite q => min q.floor.toNat limit

theorem less_irrefl (x : Binary64) : less x x = false := by
  cases x with
  | undefined => rfl
  | infinite => rfl
  | finite q => exact decide_eq_false Rat.lt_irrefl

end Binary64

end SourceIndex
