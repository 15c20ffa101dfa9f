import Mathlib.Data.List.Induction
import SourceIndex.Proofs.Numeric.Binary64Order

/-!
# Rounded quotients against exact ones

A quotient of two counts is rounded, and so is what it is compared with, but below certain sizes of the counts this
does not change the outcome.  Rounding to the nearest takes away at most one part in `2 ^ 53`
(`sub_div_le_roundSignificant`), so a total below `2 ^ 53` exceeds a limit on average exactly if it exceeds the product
(`ofNat_less_div_iff`).  A share of up to `bound` parts that falls short of `num / den` falls short by at least
`1 / (den * bound)`, so it is enough that rounding tells these two apart (`div_less_ofRat_iff`), and in the same way
for a share that exceeds `num / den` (`ofRat_less_div_iff`).  A sum of shares of at most one each is rounded after each
addition, and that does not take it above their number (`not_less_sum`), nor their average above one
(`not_less_average`).
-/

namespace SourceIndex

namespace Numeric

theorem sub_half_le_roundHalfEven (q : Rat) : q - 1 / 2 ≤ roundHalfEven q := by
  have hsucc : ((q.floor + 1 : Int) : Rat) = q.floor + 1 := by rw [Int.cast_add, Int.cast_one]
  have hfloor : q < q.floor + 1 := hsucc ▸ Rat.lt_floor_add_one q
  dsimp only [roundHalfEven]
  split
  · linarith
  · split
    · rw [hsucc]
      linarith
    · split
      · linarith
      · rw [hsucc]
        linarith

/-- Rounding to the nearest takes away half a unit of the last place at most. -/
theorem sub_div_le_roundSignificant {q : Rat} (h : 0 < q) : q - q / 2 ^ 53 ≤ roundSignificant q := by
  have hplace := lastPlace_pos q
  have hhalf : lastPlace q / 2 ≤ q / 2 ^ 53 := by
    have hle := lastPlace_le h
    linarith
  calc q - q / 2 ^ 53 ≤ q - lastPlace q / 2 := sub_le_sub_left hhalf q
    _ = (q / lastPlace q - 1 / 2) * lastPlace q := by rw [sub_mul, div_mul_cancel₀ q hplace.ne']; ring
    _ ≤ roundHalfEven (q / lastPlace q) * lastPlace q :=
      mul_le_mul_of_nonneg_right (sub_half_le_roundHalfEven _) hplace.le
    _ = roundSignificant q := (roundSignificant_of_pos h).symm

section Counts

variable {total count limit : Nat}

theorem roundSignificant_natCast (h : total ≤ 2 ^ 53) : roundSignificant total = total :=
  roundSignificant_eq_self (fitsSignificand_natCast h)

theorem roundSignificant_div_le_one {a b : Rat} (hb : 0 < b) (h : a ≤ b) : roundSignificant (a / b) ≤ 1 := by
  have hone : roundSignificant ((1 : Nat) : Rat) = 1 := by rw [roundSignificant_natCast (by decide), Nat.cast_one]
  rw [← hone]
  refine roundSignificant_mono ?_
  rwa [Nat.cast_one, div_le_one hb]

/-- What exceeds a limit on average still exceeds it after rounding. -/
private theorem lt_roundSignificant_div (hcount : 0 < count) (htotal : total < 2 ^ 53) (h : limit * count < total) :
    (limit : Rat) < roundSignificant (total / count) := by
  have hcount' : (0 : Rat) < count := by exact_mod_cast hcount
  have htotal' : (total : Rat) < 2 ^ 53 := by exact_mod_cast htotal
  have hpos : (0 : Rat) < total / count := div_pos (by exact_mod_cast Nat.zero_lt_of_lt h) hcount'
  have hexceeds : (limit : Rat) * count + 1 ≤ total := by exact_mod_cast h
  -- what rounding takes away from the total is less than one
  have hlost : (total : Rat) / 2 ^ 53 < 1 := (div_lt_one (by norm_num)).mpr htotal'
  refine lt_of_lt_of_le ?_ (sub_div_le_roundSignificant hpos)
  have hsplit : (total : Rat) / count - total / count / 2 ^ 53 = (total - total / 2 ^ 53) / count := by ring
  rw [hsplit, lt_div_iff₀ hcount']
  linarith

/-- What does not exceed a limit on average does not exceed it by the number of counts being rounded. -/
private theorem div_roundSignificant_le (hcount : 0 < count) (htotal : total < 2 ^ 53) (h : total ≤ limit * count) :
    (total : Rat) / roundSignificant count ≤ limit := by
  have hpos : 0 < roundSignificant count := roundSignificant_pos (by exact_mod_cast hcount)
  rw [div_le_iff₀ hpos]
  rcases le_or_gt count (2 ^ 53) with hexact | hlarge
  · rw [roundSignificant_natCast hexact]
    exact_mod_cast h
  · -- the total is smaller than the count then
    have hround : (total : Rat) ≤ roundSignificant count := by
      calc (total : Rat) = roundSignificant total := (roundSignificant_natCast htotal.le).symm
        _ ≤ roundSignificant count := roundSignificant_mono (by exact_mod_cast (htotal.trans hlarge).le)
    rcases Nat.eq_zero_or_pos limit with rfl | hlimit
    · have hzero : total = 0 := by omega
      simp [hzero]
    · have hone : (1 : Rat) ≤ limit := by exact_mod_cast hlimit
      exact hround.trans (le_mul_of_one_le_left hpos.le hone)

end Counts

end Numeric

namespace Binary64

open Numeric (roundSignificant roundSignificant_mono roundSignificant_natCast)

theorem less_of_le_of_less {a b : Rat} {x : Binary64} (h : a ≤ b) (hless : less (finite b) x = true) :
    less (finite a) x = true := by
  cases x with
  | undefined => simp [less] at hless
  | infinite => rfl
  | finite c => exact less_finite_iff.mpr (h.trans_lt (less_finite_iff.mp hless))

theorem less_ofNat_of_le {m n : Nat} {x : Binary64} (h : m ≤ n) (hless : less (ofNat n) x = true) :
    less (ofNat m) x = true :=
  less_of_le_of_less (roundSignificant_mono (by exact_mod_cast h)) hless

/-- An average exceeds a limit exactly if the total exceeds the product of the limit and the count. -/
theorem ofNat_less_div_iff {total count limit : Nat} (hcount : 0 < count) (htotal : total < 2 ^ 53) :
    (ofNat limit).less (ofNat total / ofNat count) = true ↔ limit * count < total := by
  have hpos : 0 < roundSignificant count := Numeric.roundSignificant_pos (by exact_mod_cast hcount)
  have hquotient : ofNat total / ofNat count = ofRat (total / roundSignificant count) := by
    rw [ofNat, ofNat, ofRat, ofRat, finite_div_finite hpos.ne', roundSignificant_natCast htotal.le]
  rw [hquotient, ofNat, ofRat, ofRat, less_finite_iff]
  constructor
  · intro hless
    by_contra hnot
    exact hless.not_ge (roundSignificant_mono (Numeric.div_roundSignificant_le hcount htotal (not_lt.mp hnot)))
  · intro h
    rcases Nat.eq_zero_or_pos limit with rfl | hlimit
    · rw [Nat.cast_zero, Numeric.roundSignificant_zero]
      exact Numeric.roundSignificant_pos (div_pos (by exact_mod_cast Nat.zero_lt_of_lt h) hpos)
    · have hcount' : count ≤ 2 ^ 53 := (Nat.le_mul_of_pos_left count hlimit).trans (h.trans htotal).le
      have hlimit' : limit ≤ 2 ^ 53 := (Nat.le_mul_of_pos_right limit hcount).trans (h.trans htotal).le
      rw [roundSignificant_natCast hcount', roundSignificant_natCast hlimit']
      exact Numeric.lt_roundSignificant_div hcount htotal h

theorem ofNat_div_ofNat {part parts : Nat} (hpos : 0 < parts) (hexact : parts ≤ 2 ^ 53) :
    ofNat part / ofNat parts = ofRat (roundSignificant part / parts) := by
  have hparts' : (parts : Rat) ≠ 0 := by exact_mod_cast hpos.ne'
  rw [ofNat, ofNat, ofRat, ofRat, roundSignificant_natCast hexact, finite_div_finite hparts']

/-- A share of parts is below a fraction exactly if it is so without rounding, as long as there are not too many parts
for the rounded fraction to differ from the next smaller fraction of parts. -/
theorem div_less_ofRat_iff {part parts bound num den : Nat} (hpart : part ≤ parts) (hpos : 0 < parts)
    (hbound : parts ≤ bound) (hexact : bound ≤ 2 ^ 53) (hden : 0 < den)
    (hgap : roundSignificant ((num : Rat) / den - 1 / (den * bound)) < roundSignificant ((num : Rat) / den)) :
    (ofNat part / ofNat parts).less (ofRat ((num : Rat) / den)) = true ↔ den * part < num * parts := by
  have hparts' : (0 : Rat) < parts := by exact_mod_cast hpos
  have hden' : (0 : Rat) < den := by exact_mod_cast hden
  rw [ofNat_div_ofNat hpos (hbound.trans hexact), roundSignificant_natCast (by omega), ofRat, ofRat, less_finite_iff]
  constructor
  · intro hless
    by_contra hnot
    have hle : (num : Rat) / den ≤ part / parts := by
      rw [div_le_div_iff₀ hden' hparts']
      have h : num * parts ≤ part * den := by linarith
      exact_mod_cast h
    exact hless.not_ge (roundSignificant_mono hle)
  · intro h
    refine lt_of_le_of_lt (roundSignificant_mono ?_) hgap
    have hstep : (den : Rat) * part + 1 ≤ num * parts := by exact_mod_cast h
    calc (part : Rat) / parts ≤ num / den - 1 / (den * parts) := by
          rw [div_sub_div _ _ hden'.ne' (mul_pos hden' hparts').ne', div_le_div_iff₀ hparts' (by positivity)]
          nlinarith [mul_pos hden' hparts']
      _ ≤ num / den - 1 / (den * bound) := by
          refine sub_le_sub_left (one_div_le_one_div_of_le (mul_pos hden' hparts') ?_) _
          exact mul_le_mul_of_nonneg_left (by exact_mod_cast hbound) hden'.le

/-- A share of parts is above a fraction exactly if it is so without rounding, on the same terms.  Here there may be
more than all parts. -/
theorem ofRat_less_div_iff {part parts bound num den : Nat} (hpos : 0 < parts) (hbound : parts ≤ bound)
    (hexact : bound ≤ 2 ^ 53) (hnum : num < den)
    (hgap : roundSignificant ((num : Rat) / den) < roundSignificant ((num : Rat) / den + 1 / (den * bound))) :
    (ofRat ((num : Rat) / den)).less (ofNat part / ofNat parts) = true ↔ num * parts < den * part := by
  have hparts' : (0 : Rat) < parts := by exact_mod_cast hpos
  have hden' : (0 : Rat) < den := by exact_mod_cast Nat.zero_lt_of_lt hnum
  rw [ofNat_div_ofNat hpos (hbound.trans hexact), ofRat, ofRat, less_finite_iff]
  constructor
  · intro hless
    by_contra hnot
    have hle : part ≤ parts := by
      refine Nat.le_of_mul_le_mul_left ?_ (Nat.zero_lt_of_lt hnum)
      exact (not_lt.mp hnot).trans (Nat.mul_le_mul_right parts hnum.le)
    have hfraction : (part : Rat) / parts ≤ num / den := by
      rw [div_le_div_iff₀ hparts' hden']
      have h : part * den ≤ num * parts := by linarith
      exact_mod_cast h
    rw [roundSignificant_natCast (hle.trans (hbound.trans hexact))] at hless
    exact hless.not_ge (roundSignificant_mono hfraction)
  · intro h
    -- as many parts as there are exceed the fraction already, and their number is not rounded
    have hstep : num * parts + 1 ≤ den * min part parts := by
      rcases le_total part parts with hle | hle
      · rwa [min_eq_left hle]
      · rw [min_eq_right hle]
        exact Nat.mul_lt_mul_of_pos_right hnum hpos
    have hstep' : (num : Rat) * parts + 1 ≤ den * (min part parts : Nat) := by exact_mod_cast hstep
    have hround : ((min part parts : Nat) : Rat) ≤ roundSignificant part := by
      rw [← roundSignificant_natCast ((min_le_right part parts).trans (hbound.trans hexact))]
      exact roundSignificant_mono (by exact_mod_cast min_le_left part parts)
    refine hgap.trans_le (roundSignificant_mono ?_)
    calc (num : Rat) / den + 1 / (den * bound) ≤ num / den + 1 / (den * parts) := by
          refine add_le_add_right (one_div_le_one_div_of_le (mul_pos hden' hparts') ?_) _
          exact mul_le_mul_of_nonneg_left (by exact_mod_cast hbound) hden'.le
      _ ≤ (min part parts : Nat) / parts := by
          rw [div_add_div _ _ hden'.ne' (mul_pos hden' hparts').ne', div_le_div_iff₀ (by positivity) hparts']
          nlinarith [mul_pos hden' hparts']
      _ ≤ roundSignificant part / parts := div_le_div_of_nonneg_right hround hparts'.le

/-! ### Averages -/

section Averages

variable {shares : List Binary64}

/-- A sum of shares of at most one each does not grow above their number, and above `2 ^ 53`, where adding one more is
lost in rounding, it does not grow at all. -/
theorem not_less_sum (h : ∀ share ∈ shares, (finite 1).less share = false) :
    (finite (min shares.length (2 ^ 53) : Nat)).less (shares.foldl (· + ·) (finite 0)) = false := by
  induction shares using List.reverseRecOn with
  | nil => decide
  | append_singleton shares share ih =>
    have hshares := ih fun s hs => h s (List.mem_append_left _ hs)
    have hshare := h share (by simp)
    rw [List.foldl_append, List.foldl_cons, List.foldl_nil, List.length_append, List.length_singleton]
    refine not_less_of_le ?_ (not_less_add hshares hshare)
    rcases lt_or_ge shares.length (2 ^ 53) with hexact | hlarge
    · rw [min_eq_left hexact.le, min_eq_left (by omega), ← Nat.cast_succ, roundSignificant_natCast (by omega)]
    · have hround : roundSignificant (((2 ^ 53 : Nat) : Rat) + 1) ≤ (2 ^ 53 : Nat) := by decide +kernel
      rwa [min_eq_right hlarge, min_eq_right (by omega)]

theorem not_less_average (h : ∀ share ∈ shares, (finite 1).less share = false) :
    (finite 1).less (shares.foldl (· + ·) (finite 0) / ofNat shares.length) = false := by
  rcases List.eq_nil_or_concat shares with rfl | ⟨front, last, hshares⟩
  · -- zero is divided by zero
    rw [List.foldl_nil, List.length_nil, ofNat_zero, zero_div_zero]
    rfl
  · have hlength : 0 < shares.length := by simp [hshares]
    have hpos : 0 < roundSignificant shares.length := Numeric.roundSignificant_pos (by exact_mod_cast hlength)
    have hmin : ((min shares.length (2 ^ 53) : Nat) : Rat) ≤ roundSignificant shares.length := by
      rw [← roundSignificant_natCast (min_le_right shares.length (2 ^ 53))]
      exact roundSignificant_mono (by exact_mod_cast min_le_left _ _)
    exact not_less_of_le (Numeric.roundSignificant_div_le_one hpos hmin) (not_less_div_finite hpos (not_less_sum h))

end Averages

end Binary64

end SourceIndex
