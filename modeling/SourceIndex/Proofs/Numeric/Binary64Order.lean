import SourceIndex.Numeric.Binary64
import SourceIndex.Proofs.Numeric.Significand

/-!
# The order of binary64 numbers

`Binary64.less` is a strict order in which the undefined number is neither below nor above any other, and it is total
on the rest (`less_of_not_less_of_less`).  A quotient of finite numbers is their exact quotient rounded once, so it
does not fall when the dividend grows and the divisor shrinks (`not_less_div`).  Bounds from above go through sums,
products and quotients, each rounded once, and an undefined number keeps every one of them (`not_less_iff`).
-/

namespace SourceIndex.Binary64

open Numeric (roundSignificant roundSignificant_mono)

theorem less_finite_iff {a b : Rat} : less (finite a) (finite b) = true ↔ a < b := decide_eq_true_iff

section Order

variable {x y z : Binary64}

theorem less_trans (hxy : less x y = true) (hyz : less y z = true) : less x z = true := by
  cases x <;> cases y <;> cases z <;> simp_all only [less, Bool.false_eq_true, decide_eq_true_eq]
  exact hxy.trans hyz

theorem not_less_of_less (h : less x y = true) : less y x = false := by
  rw [← Bool.not_eq_true]
  intro h'
  simpa [less_irrefl] using less_trans h h'

/-- What is not above a number is below everything that this number is below. -/
theorem less_of_not_less_of_less (hx : x ≠ undefined) (hyx : less y x = false) (hyz : less y z = true) :
    less x z = true := by
  cases x <;> cases y <;> cases z <;>
    simp_all only [less, Bool.false_eq_true, decide_eq_true_eq, decide_eq_false_iff_not, not_lt, ne_eq,
      not_true_eq_false, reduceCtorEq, Bool.true_eq_false]
  exact lt_of_le_of_lt hyx hyz

theorem ne_undefined_of_less (h : less x y = true) : x ≠ undefined ∧ y ≠ undefined := by
  constructor <;> rintro rfl
  · simp [less] at h
  · cases x <;> simp [less] at h

end Order

/-! ### Quotients -/

theorem ofRat_zero : ofRat 0 = finite 0 := congrArg finite Numeric.roundSignificant_zero

theorem ofNat_zero : ofNat 0 = finite 0 := by rw [ofNat, Nat.cast_zero, ofRat_zero]

theorem finite_div_finite {a b : Rat} (h : b ≠ 0) : finite a / finite b = ofRat (a / b) := if_neg h

theorem finite_div_zero {a : Rat} (h : a ≠ 0) : finite a / finite 0 = infinite := by
  show div (finite a) (finite 0) = infinite
  rw [div, if_pos rfl, if_neg h]

theorem zero_div_zero : finite 0 / finite 0 = undefined := by
  show div (finite 0) (finite 0) = undefined
  rw [div, if_pos rfl, if_pos rfl]

theorem div_undefined (x : Binary64) : x / undefined = undefined := by cases x <;> rfl

theorem not_less_div {a b u v : Rat} (ha : 0 ≤ a) (hab : a ≤ b) (hu : 0 < u) (huv : u ≤ v) :
    less (finite b / finite u) (finite a / finite v) = false := by
  have hquotient : a / v ≤ b / u := div_le_div₀ (ha.trans hab) hab hu huv
  rw [finite_div_finite hu.ne', finite_div_finite (hu.trans_le huv).ne', ← Bool.not_eq_true]
  exact mt less_finite_iff.mp (not_lt.mpr (roundSignificant_mono hquotient))

/-! ### Upper bounds -/

section UpperBounds

variable {a b : Rat} {x y : Binary64}

/-- What is not above a bound is a number up to the bound, or undefined. -/
theorem not_less_iff : less (finite a) x = false ↔ x = undefined ∨ ∃ q ≤ a, x = finite q := by
  cases x with
  | undefined => simp [less]
  | infinite => simp [less]
  | finite q => simp [less]

theorem not_less_of_le (h : a ≤ b) (hx : less (finite a) x = false) : less (finite b) x = false := by
  obtain rfl | ⟨q, hq, rfl⟩ := not_less_iff.mp hx
  · rfl
  · exact not_less_iff.mpr (.inr ⟨q, hq.trans h, rfl⟩)

theorem not_less_add (hx : less (finite a) x = false) (hy : less (finite b) y = false) :
    less (ofRat (a + b)) (x + y) = false := by
  obtain rfl | ⟨p, hp, rfl⟩ := not_less_iff.mp hx
  · rfl
  · obtain rfl | ⟨q, hq, rfl⟩ := not_less_iff.mp hy
    · rfl
    · exact not_less_iff.mpr (.inr ⟨_, roundSignificant_mono (add_le_add hp hq), rfl⟩)

theorem not_less_mul (hb : 0 ≤ b) (hx : less (finite a) x = false) :
    less (ofRat (a * b)) (x * finite b) = false := by
  obtain rfl | ⟨p, hp, rfl⟩ := not_less_iff.mp hx
  · rfl
  · exact not_less_iff.mpr (.inr ⟨_, roundSignificant_mono (mul_le_mul_of_nonneg_right hp hb), rfl⟩)

theorem not_less_div_finite (hb : 0 < b) (hx : less (finite a) x = false) :
    less (ofRat (a / b)) (x / finite b) = false := by
  obtain rfl | ⟨p, hp, rfl⟩ := not_less_iff.mp hx
  · rfl
  · rw [finite_div_finite hb.ne']
    exact not_less_iff.mpr (.inr ⟨_, roundSignificant_mono (div_le_div_of_nonneg_right hp hb.le), rfl⟩)

theorem truncate_le {n : Nat} (limit : Nat) (hx : less (finite n) x = false) : x.truncate limit ≤ n := by
  obtain rfl | ⟨q, hq, rfl⟩ := not_less_iff.mp hx
  · exact Nat.zero_le n
  · have hfloor : (q.floor : Rat) ≤ ((n : Int) : Rat) := (Rat.floor_le q).trans (by exact_mod_cast hq)
    have hfloor' : q.floor ≤ n := by exact_mod_cast hfloor
    exact (Nat.min_le_left _ _).trans (Int.toNat_le.mpr hfloor')

end UpperBounds

end SourceIndex.Binary64
