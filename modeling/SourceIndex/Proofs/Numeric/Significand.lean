import Mathlib.Data.Int.Log
import Mathlib.Data.Rat.Floor
import Mathlib.Tactic.Linarith
import SourceIndex.Numeric.Rounding

/-!
# Numbers with a short significand

The numbers that rounding yields are those whose significand fits into the significant bits (`FitsSignificand`).
`roundDown q` is the greatest of them that is at most `q` (`le_roundDown`), `roundUp q` the least that is at least `q`
(`roundUp_le`), and `roundSignificant q` is at least the one and at most the other.  So rounding leaves such numbers
alone (`roundSignificant_eq_self`) and keeps the order of all others (`roundSignificant_mono`).
-/

namespace SourceIndex.Numeric

/-! ### Powers of two -/

theorem pow2_eq_zpow (e : Int) : pow2 e = (2 : Rat) ^ e := by
  cases e with
  | ofNat n => simp [pow2]
  | negSucc n => simp [pow2, zpow_negSucc]

theorem pow2_pos (e : Int) : 0 < pow2 e := by
  rw [pow2_eq_zpow]
  exact zpow_pos two_pos e

theorem pow2_add (e e' : Int) : pow2 (e + e') = pow2 e * pow2 e' := by
  simp only [pow2_eq_zpow]
  exact zpow_add₀ two_ne_zero e e'

theorem pow2_natCast (n : Nat) : pow2 n = 2 ^ n := by rw [pow2_eq_zpow, zpow_natCast]

theorem pow2_le_pow2_iff {e e' : Int} : pow2 e ≤ pow2 e' ↔ e ≤ e' := by
  rw [pow2_eq_zpow, pow2_eq_zpow]
  exact zpow_le_zpow_iff_right₀ one_lt_two

theorem pow2_lt_pow2_iff {e e' : Int} : pow2 e < pow2 e' ↔ e < e' := by
  rw [pow2_eq_zpow, pow2_eq_zpow]
  exact zpow_lt_zpow_iff_right₀ one_lt_two

/-! ### The exponent of a number -/

private theorem clog_succ {n : Nat} (h : n ≠ 0) : Nat.clog 2 (n + 1) = n.log2 + 1 := by
  refine le_antisymm ?_ ?_
  · rw [Nat.clog_le_iff_le_pow one_lt_two]
    exact Nat.lt_log2_self
  · rw [Nat.succ_le_iff, Nat.lt_clog_iff_pow_lt one_lt_two, Nat.lt_succ_iff]
    exact Nat.log2_self_le h

private theorem toNat_ceil (q : Rat) : q.ceil.toNat = ⌈q⌉₊ := by
  refine eq_of_forall_ge_iff fun n => ?_
  rw [Int.toNat_le, Rat.ceil_le_iff, Nat.ceil_le, Int.cast_natCast]

theorem binaryExponent_eq_log {q : Rat} (h : 0 < q) : binaryExponent q = Int.log 2 q := by
  unfold binaryExponent
  by_cases hone : 1 ≤ q
  · rw [if_pos hone, Int.log_of_one_le_right 2 hone, Nat.log2_eq_log_two, ← Int.floor_toNat]
    rfl
  · have hceil : 2 ≤ ⌈q⁻¹⌉₊ := by
      rw [Nat.succ_le_iff, Nat.lt_ceil, Nat.cast_one, one_lt_inv₀ h]
      exact lt_of_not_ge hone
    obtain ⟨n, hn⟩ : ∃ n, ⌈q⁻¹⌉₊ = n + 1 := ⟨⌈q⁻¹⌉₊ - 1, by omega⟩
    rw [if_neg hone, Int.log_of_right_le_one 2 (le_of_not_ge hone), toNat_ceil, one_div, hn, clog_succ (by omega)]
    rfl

section Exponent

variable {p q : Rat}

theorem pow2_binaryExponent_le (h : 0 < q) : pow2 (binaryExponent q) ≤ q := by
  rw [binaryExponent_eq_log h, pow2_eq_zpow]
  exact Int.zpow_log_le_self one_lt_two h

theorem lt_pow2_binaryExponent (h : 0 < q) : q < pow2 (binaryExponent q + 1) := by
  rw [binaryExponent_eq_log h, pow2_eq_zpow]
  exact Int.lt_zpow_succ_log_self one_lt_two q

theorem binaryExponent_mono (hp : 0 < p) (h : p ≤ q) : binaryExponent p ≤ binaryExponent q := by
  have hlow := pow2_binaryExponent_le hp
  have hhigh := lt_pow2_binaryExponent (hp.trans_le h)
  have hlt := pow2_lt_pow2_iff.mp ((hlow.trans h).trans_lt hhigh)
  omega

theorem lastPlace_pos (q : Rat) : 0 < lastPlace q := pow2_pos _

theorem pow2_binaryExponent (q : Rat) : pow2 (binaryExponent q) = 2 ^ 52 * lastPlace q := by
  have hexponent : binaryExponent q = (52 : Nat) + (binaryExponent q - (significantBits - 1 : Nat)) := by
    unfold significantBits
    omega
  rw [hexponent, pow2_add, pow2_natCast]
  rfl

/-- The significand of a number has its highest bit set. -/
theorem le_div_lastPlace (h : 0 < q) : (2 : Rat) ^ 52 ≤ q / lastPlace q := by
  rw [le_div_iff₀ (lastPlace_pos q), ← pow2_binaryExponent]
  exact pow2_binaryExponent_le h

theorem lastPlace_le (h : 0 < q) : lastPlace q ≤ q / 2 ^ 52 := by
  rw [le_div_iff₀ (by norm_num), mul_comm, ← pow2_binaryExponent]
  exact pow2_binaryExponent_le h

theorem div_lastPlace_lt (h : 0 < q) : q / lastPlace q < 2 ^ 53 := by
  have hsucc : pow2 (binaryExponent q + 1) = 2 ^ 53 * lastPlace q := by
    rw [pow2_add, pow2_binaryExponent, show pow2 1 = 2 from rfl]
    ring
  rw [div_lt_iff₀ (lastPlace_pos q), ← hsucc]
  exact lt_pow2_binaryExponent h

end Exponent

/-! ### Significands that fit -/

/-- Whether the significand of a number fits into the significant bits.  A significand with one bit more is one half
of it with the next exponent if all its other bits are 0. -/
def FitsSignificand (v : Rat) : Prop := ∃ (significand : Nat) (e : Int), significand ≤ 2 ^ 53 ∧ v = significand * pow2 e

theorem FitsSignificand.nonneg {v : Rat} (h : FitsSignificand v) : 0 ≤ v := by
  obtain ⟨k, e, -, rfl⟩ := h
  exact mul_nonneg (Nat.cast_nonneg k) (pow2_pos e).le

theorem fitsSignificand_pow2 (e : Int) : FitsSignificand (pow2 e) := ⟨1, e, by decide, by simp⟩

theorem fitsSignificand_natCast {n : Nat} (h : n ≤ 2 ^ 53) : FitsSignificand n := by
  refine ⟨n, 0, h, ?_⟩
  rw [pow2_eq_zpow, zpow_zero, mul_one]

/-- A number that fits is a multiple of each place that is not below the last place of its significand. -/
theorem FitsSignificand.exists_eq_mul {v : Rat} (hv : FitsSignificand v) {e : Int} (h : 2 ^ 52 * pow2 e ≤ v) :
    ∃ n : Int, v = n * pow2 e := by
  obtain ⟨k, j, hk, rfl⟩ := hv
  rcases h.eq_or_lt with heq | hlt
  · exact ⟨2 ^ 52, by rw [← heq]; norm_num⟩
  · have hbound : pow2 ((52 : Nat) + e) < pow2 ((53 : Nat) + j) := by
      rw [pow2_add, pow2_add, pow2_natCast, pow2_natCast]
      refine hlt.trans_le (mul_le_mul_of_nonneg_right ?_ (pow2_pos j).le)
      exact_mod_cast hk
    have hle := pow2_lt_pow2_iff.mp hbound
    obtain ⟨d, hd⟩ : ∃ d : Nat, j = d + e := ⟨(j - e).toNat, by omega⟩
    refine ⟨k * 2 ^ d, ?_⟩
    rw [hd, pow2_add, pow2_natCast, ← mul_assoc]
    norm_cast

/-! ### Rounding to one side -/

section Neighbours

variable {q v : Rat}

theorem roundDown_of_pos (h : 0 < q) : roundDown q = (q / lastPlace q).floor * lastPlace q := if_pos h

theorem roundUp_of_pos (h : 0 < q) : roundUp q = (q / lastPlace q).ceil * lastPlace q := if_pos h

theorem roundDown_of_nonpos (h : q ≤ 0) : roundDown q = 0 := if_neg (not_lt.mpr h)

theorem roundUp_of_nonpos (h : q ≤ 0) : roundUp q = 0 := if_neg (not_lt.mpr h)

theorem roundDown_le (h : 0 ≤ q) : roundDown q ≤ q := by
  rcases h.eq_or_lt with rfl | hpos
  · exact (roundDown_of_nonpos le_rfl).le
  · rw [roundDown_of_pos hpos, ← le_div_iff₀ (lastPlace_pos q)]
    exact Rat.floor_le _

theorem le_roundUp (q : Rat) : q ≤ roundUp q := by
  rcases le_or_gt q 0 with hneg | hpos
  · rwa [roundUp_of_nonpos hneg]
  · rw [roundUp_of_pos hpos, ← div_le_iff₀ (lastPlace_pos q)]
    exact Rat.le_ceil

/-- `roundUp` goes up by less than one unit of the last place. -/
theorem roundUp_lt (h : 0 < q) : roundUp q < q + lastPlace q := by
  have hceil : ((q / lastPlace q).ceil : Rat) < q / lastPlace q + 1 := Rat.ceil_lt
  calc roundUp q = (q / lastPlace q).ceil * lastPlace q := roundUp_of_pos h
    _ < (q / lastPlace q + 1) * lastPlace q := mul_lt_mul_of_pos_right hceil (lastPlace_pos q)
    _ = q + lastPlace q := by rw [add_mul, div_mul_cancel₀ q (lastPlace_pos q).ne', one_mul]

private theorem fitsSignificand_mul_lastPlace {n : Int} (hn : 0 ≤ n) (h : n ≤ 2 ^ 53) (q : Rat) :
    FitsSignificand (n * lastPlace q) := by
  obtain ⟨k, rfl⟩ := Int.eq_ofNat_of_zero_le hn
  exact ⟨k, _, by exact_mod_cast h, by rfl⟩

theorem fitsSignificand_roundDown (q : Rat) : FitsSignificand (roundDown q) := by
  rcases le_or_gt q 0 with hneg | hpos
  · rw [roundDown_of_nonpos hneg]
    exact ⟨0, 0, by decide, by simp⟩
  · rw [roundDown_of_pos hpos]
    refine fitsSignificand_mul_lastPlace ?_ ?_ q
    · rw [Rat.le_floor_iff]
      exact div_nonneg hpos.le (lastPlace_pos q).le
    · refine (Rat.floor_lt_iff.mpr ?_).le
      exact_mod_cast div_lastPlace_lt hpos

theorem fitsSignificand_roundUp (q : Rat) : FitsSignificand (roundUp q) := by
  rcases le_or_gt q 0 with hneg | hpos
  · rw [roundUp_of_nonpos hneg]
    exact ⟨0, 0, by decide, by simp⟩
  · rw [roundUp_of_pos hpos]
    refine fitsSignificand_mul_lastPlace ?_ ?_ q
    · have hceil : q / lastPlace q ≤ ((q / lastPlace q).ceil : Rat) := Rat.le_ceil
      exact_mod_cast (div_nonneg hpos.le (lastPlace_pos q).le).trans hceil
    · rw [Rat.ceil_le_iff]
      exact_mod_cast (div_lastPlace_lt hpos).le

theorem pow2_binaryExponent_le_roundDown (h : 0 < q) : pow2 (binaryExponent q) ≤ roundDown q := by
  rw [roundDown_of_pos h, pow2_binaryExponent]
  refine mul_le_mul_of_nonneg_right ?_ (lastPlace_pos q).le
  have hfloor : (2 ^ 52 : Int) ≤ (q / lastPlace q).floor := by
    rw [Rat.le_floor_iff]
    exact_mod_cast le_div_lastPlace h
  exact_mod_cast hfloor

/-- `roundDown q` is the greatest number that fits and is at most `q`. -/
theorem le_roundDown (hv : FitsSignificand v) (h : v ≤ q) : v ≤ roundDown q := by
  rcases le_or_gt q 0 with hneg | hpos
  · rw [roundDown_of_nonpos hneg]
    exact h.trans hneg
  · rcases le_or_gt v (pow2 (binaryExponent q)) with hlow | hhigh
    · exact hlow.trans (pow2_binaryExponent_le_roundDown hpos)
    · obtain ⟨n, rfl⟩ := hv.exists_eq_mul (e := binaryExponent q - (significantBits - 1 : Nat))
        (pow2_binaryExponent q ▸ hhigh.le)
      rw [roundDown_of_pos hpos]
      refine mul_le_mul_of_nonneg_right ?_ (lastPlace_pos q).le
      exact_mod_cast Rat.le_floor_iff.mpr ((le_div_iff₀ (lastPlace_pos q)).mpr h)

/-- `roundUp q` is the least number that fits and is at least `q`. -/
theorem roundUp_le (hv : FitsSignificand v) (h : q ≤ v) : roundUp q ≤ v := by
  rcases le_or_gt q 0 with hneg | hpos
  · rw [roundUp_of_nonpos hneg]
    exact hv.nonneg
  · obtain ⟨n, rfl⟩ := hv.exists_eq_mul (e := binaryExponent q - (significantBits - 1 : Nat))
      (pow2_binaryExponent q ▸ (pow2_binaryExponent_le hpos).trans h)
    rw [roundUp_of_pos hpos]
    refine mul_le_mul_of_nonneg_right ?_ (lastPlace_pos q).le
    exact_mod_cast Rat.ceil_le_iff.mpr ((div_le_iff₀ (lastPlace_pos q)).mpr h)

end Neighbours

/-! ### Rounding to the nearest -/

theorem floor_le_roundHalfEven (q : Rat) : q.floor ≤ roundHalfEven q := by
  unfold roundHalfEven
  grind

theorem roundHalfEven_le_ceil (q : Rat) : roundHalfEven q ≤ q.ceil := by
  by_cases hint : (q.floor : Rat) = q
  · have hceil : q.floor ≤ q.ceil := by
      have := (Rat.floor_le q).trans (Rat.le_ceil (x := q))
      exact_mod_cast this
    unfold roundHalfEven
    simpa [hint] using hceil
  · have hlt : q.floor < q.ceil := Rat.lt_ceil_iff.mpr (lt_of_le_of_ne (Rat.floor_le q) hint)
    unfold roundHalfEven
    grind

theorem roundHalfEven_mono {p q : Rat} (h : p ≤ q) : roundHalfEven p ≤ roundHalfEven q := by
  have hfloor : p.floor ≤ q.floor := Rat.le_floor_iff.mpr ((Rat.floor_le p).trans h)
  rcases hfloor.eq_or_lt with hsame | hlt
  · -- between the same two integers the choice depends on the rest alone
    have hrest : p - p.floor ≤ q - q.floor := by
      rw [hsame]
      exact sub_le_sub_right h _
    unfold roundHalfEven
    grind
  · have hceil : p.ceil ≤ q.floor := by
      have hp : p < ((p.floor + 1 : Int) : Rat) := Rat.lt_floor_add_one p
      have hstep : ((p.floor + 1 : Int) : Rat) ≤ q.floor := by exact_mod_cast hlt
      exact Rat.ceil_le_iff.mpr (hp.le.trans hstep)
    exact (roundHalfEven_le_ceil p).trans (hceil.trans (floor_le_roundHalfEven q))

section Nearest

variable {p q v : Rat}

theorem roundSignificant_of_pos (h : 0 < q) :
    roundSignificant q = (roundHalfEven (q / lastPlace q) : Rat) * lastPlace q := if_pos h

theorem roundSignificant_of_nonpos (h : q ≤ 0) : roundSignificant q = 0 := if_neg (not_lt.mpr h)

theorem roundDown_le_roundSignificant (q : Rat) : roundDown q ≤ roundSignificant q := by
  rcases le_or_gt q 0 with hneg | hpos
  · rw [roundDown_of_nonpos hneg, roundSignificant_of_nonpos hneg]
  · rw [roundDown_of_pos hpos, roundSignificant_of_pos hpos]
    refine mul_le_mul_of_nonneg_right ?_ (lastPlace_pos q).le
    exact_mod_cast floor_le_roundHalfEven _

theorem roundSignificant_le_roundUp (q : Rat) : roundSignificant q ≤ roundUp q := by
  rcases le_or_gt q 0 with hneg | hpos
  · rw [roundUp_of_nonpos hneg, roundSignificant_of_nonpos hneg]
  · rw [roundUp_of_pos hpos, roundSignificant_of_pos hpos]
    refine mul_le_mul_of_nonneg_right ?_ (lastPlace_pos q).le
    exact_mod_cast roundHalfEven_le_ceil _

theorem roundSignificant_eq_self (hv : FitsSignificand v) : roundSignificant v = v := by
  refine le_antisymm ?_ ?_
  · exact (roundSignificant_le_roundUp v).trans (roundUp_le hv le_rfl)
  · exact (le_roundDown hv le_rfl).trans (roundDown_le_roundSignificant v)

theorem roundDown_pos (h : 0 < q) : 0 < roundDown q := (pow2_pos _).trans_le (pow2_binaryExponent_le_roundDown h)

theorem roundSignificant_pos (h : 0 < q) : 0 < roundSignificant q :=
  (roundDown_pos h).trans_le (roundDown_le_roundSignificant q)

theorem roundSignificant_mono (h : p ≤ q) : roundSignificant p ≤ roundSignificant q := by
  rcases le_or_gt p 0 with hneg | hp
  · rw [roundSignificant_of_nonpos hneg]
    exact (fitsSignificand_roundDown q).nonneg.trans (roundDown_le_roundSignificant q)
  · have hq : 0 < q := hp.trans_le h
    rcases (binaryExponent_mono hp h).eq_or_lt with hsame | hlt
    · have hplace : lastPlace p = lastPlace q := by rw [lastPlace, hsame, lastPlace]
      rw [roundSignificant_of_pos hp, roundSignificant_of_pos hq, hplace]
      refine mul_le_mul_of_nonneg_right ?_ (lastPlace_pos q).le
      exact_mod_cast roundHalfEven_mono (div_le_div_of_nonneg_right h (lastPlace_pos q).le)
    · -- a power of two lies between the two numbers
      have hbetween : p ≤ pow2 (binaryExponent q) :=
        (lt_pow2_binaryExponent hp).le.trans (pow2_le_pow2_iff.mpr hlt)
      calc roundSignificant p ≤ roundUp p := roundSignificant_le_roundUp p
        _ ≤ pow2 (binaryExponent q) := roundUp_le (fitsSignificand_pow2 _) hbetween
        _ ≤ roundDown q := pow2_binaryExponent_le_roundDown hq
        _ ≤ roundSignificant q := roundDown_le_roundSignificant q

end Nearest

end SourceIndex.Numeric
