import Mathlib.Data.Nat.Sqrt
import SourceIndex.Numeric.Power
import SourceIndex.Proofs.Numeric.Significand

/-!
# How powers grow

The chain of square roots is at least one for a base that is at least one, and grows with the base
(`fractionalPower_mono`).  So from one base to the next the power grows by at least its share for one unit of the base
(`chainPower_add_le`).  As long as the base has no more bits than a significand after its first one, that is a unit of
the last place or more; so the powers of two bases stay in order to whichever side each of them is rounded
(`powOnePointEight_mono`).
-/

namespace SourceIndex.Numeric

/-! ### The chain of square roots -/

theorem unit_le_fractionalPower {base : Nat} (h : 1 ≤ base) (places : List Bool) :
    unit ≤ fractionalPower base places := by
  induction places with
  | nil => exact le_rfl
  | cons bit places ih =>
    have hfactor : 1 ≤ if bit then base else 1 := by
      split
      · exact h
      · exact le_rfl
    rw [fractionalPower, Nat.le_sqrt]
    exact Nat.mul_le_mul_right unit (ih.trans (Nat.le_mul_of_pos_left _ hfactor))

theorem fractionalPower_mono {a b : Nat} (h : a ≤ b) (places : List Bool) :
    fractionalPower a places ≤ fractionalPower b places := by
  induction places with
  | nil => exact le_rfl
  | cons bit places ih =>
    have hfactor : (if bit then a else 1) ≤ if bit then b else 1 := by
      split
      · exact h
      · exact le_rfl
    exact Nat.sqrt_le_sqrt (Nat.mul_le_mul_right unit (Nat.mul_le_mul hfactor ih))

theorem unit_pos : 0 < unit := by decide

theorem chainPower_eq (base : Nat) :
    chainPower base = base * ((fractionalPower base placesOfOnePointEight : Rat) / unit) := by
  rw [chainPower, Nat.cast_mul, mul_div_assoc]

theorem chainPower_zero : chainPower 0 = 0 := by rw [chainPower_eq, Nat.cast_zero, zero_mul]

section Growth

variable {a b : Nat}

theorem le_chainPower (h : 1 ≤ a) : (a : Rat) ≤ chainPower a := by
  have hshare : (1 : Rat) ≤ fractionalPower a placesOfOnePointEight / unit := by
    rw [one_le_div (by exact_mod_cast unit_pos)]
    exact_mod_cast unit_le_fractionalPower h _
  rw [chainPower_eq]
  exact le_mul_of_one_le_right (Nat.cast_nonneg a) hshare

/-- A greater base adds at least the share of one unit of the smaller one. -/
theorem chainPower_add_le (ha : 1 ≤ a) (h : a < b) : chainPower a + chainPower a / a ≤ chainPower b := by
  have hshares : (fractionalPower a placesOfOnePointEight : Rat) / unit
      ≤ fractionalPower b placesOfOnePointEight / unit := by
    refine div_le_div_of_nonneg_right ?_ (Nat.cast_nonneg unit)
    exact_mod_cast fractionalPower_mono h.le _
  have hpos : (0 : Rat) < a := by exact_mod_cast ha
  have hstep : (a : Rat) + 1 ≤ b := by exact_mod_cast h
  rw [chainPower_eq a, chainPower_eq b, mul_div_cancel_left₀ _ hpos.ne', ← add_one_mul]
  exact mul_le_mul hstep hshares (div_nonneg (Nat.cast_nonneg _) (Nat.cast_nonneg _)) (Nat.cast_nonneg b)

/-! ### Rounded powers -/

theorem roundUp_chainPower_le (ha : 1 ≤ a) (h : a < b) (hbits : a ≤ 2 ^ 52) :
    roundUp (chainPower a) ≤ roundDown (chainPower b) := by
  have hpos : (0 : Rat) < a := by exact_mod_cast ha
  have hchain : 0 < chainPower a := hpos.trans_le (le_chainPower ha)
  have hplace : lastPlace (chainPower a) ≤ chainPower a / a := by
    refine (lastPlace_le hchain).trans (div_le_div_of_nonneg_left hchain.le hpos ?_)
    exact_mod_cast hbits
  refine le_roundDown (fitsSignificand_roundUp _) ?_
  calc roundUp (chainPower a) ≤ chainPower a + lastPlace (chainPower a) := (roundUp_lt hchain).le
    _ ≤ chainPower a + chainPower a / a := by gcongr
    _ ≤ chainPower b := chainPower_add_le ha h

/-- Whatever the answer is, the result is one of the two neighbours or the nearer one of them. -/
theorem chooseRounding_bounds (q : Rat) (answer : Option Rat) :
    roundDown q ≤ chooseRounding q answer ∧ chooseRounding q answer ≤ roundUp q := by
  have hlow := roundDown_le_roundSignificant q
  have hhigh := roundSignificant_le_roundUp q
  unfold chooseRounding
  split
  · split
    · exact ⟨hlow.trans hhigh, le_rfl⟩
    · split
      · exact ⟨le_rfl, hlow.trans hhigh⟩
      · exact ⟨hlow, hhigh⟩
  · exact ⟨hlow, hhigh⟩

theorem powOnePointEight_zero : powOnePointEight 0 = .finite 0 := by
  unfold powOnePointEight
  rw [chainPower_zero, chooseRounding_zero]

/-- The powers of bases from one on are finite numbers from one on and do not fall. -/
theorem powOnePointEight_mono (ha : 1 ≤ a) (h : a ≤ b) (hbits : a ≤ 2 ^ 52) :
    ∃ u v, powOnePointEight a = .finite u ∧ powOnePointEight b = .finite v ∧ 1 ≤ u ∧ u ≤ v := by
  have hbounds : ∀ base, ∃ v, powOnePointEight base = .finite v ∧ roundDown (chainPower base) ≤ v ∧
      v ≤ roundUp (chainPower base) := fun base => ⟨_, rfl, chooseRounding_bounds _ _⟩
  obtain ⟨u, hu, hlow, hhigh⟩ := hbounds a
  have hone : 1 ≤ u := by
    have hfits : FitsSignificand (1 : Nat) := fitsSignificand_natCast (by decide)
    have hchain : ((1 : Nat) : Rat) ≤ chainPower a := le_trans (by exact_mod_cast ha) (le_chainPower ha)
    simpa using (le_roundDown hfits hchain).trans hlow
  rcases h.eq_or_lt with rfl | hlt
  · exact ⟨u, u, hu, hu, hone, le_rfl⟩
  · obtain ⟨v, hv, hlow', -⟩ := hbounds b
    exact ⟨u, v, hu, hv, hone, hhigh.trans ((roundUp_chainPower_le ha hlt hbits).trans hlow')⟩

end Growth

end SourceIndex.Numeric
