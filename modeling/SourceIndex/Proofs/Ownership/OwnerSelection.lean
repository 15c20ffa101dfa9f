import Mathlib.Data.List.Induction
import SourceIndex.Ownership.Contribution
import SourceIndex.Proofs.Numeric.Binary64Order
import SourceIndex.Proofs.Numeric.PowerGrowth

/-!
# Who owns a file

A contribution has a score above zero exactly if it has a line and its age is not negative (`zero_less_score_iff`), and
only such a contribution can own a file.  The search keeps the first of those with the highest score that it has met
(`IsLeader`); one more contribution takes its place only with a higher score (`IsLeader.concat_of_less`).  A score does
not fall with more lines or a smaller age (`not_less_score`), so no contribution wins over an earlier one that is as
large and as recent.
-/

namespace SourceIndex.Contribution

open Numeric (roundSignificant)

/-- Whether a contribution can own a file: it has a line, and its age in whole hours is not negative. -/
def IsEligible (now : Int64) (c : Contribution) : Prop := 1 ≤ c.lineCount.toNat ∧ 0 ≤ c.age now

instance (now : Int64) (c : Contribution) : Decidable (c.IsEligible now) :=
  inferInstanceAs (Decidable (1 ≤ c.lineCount.toNat ∧ 0 ≤ c.age now))

/-! ### Scores -/

/-- The hours that a signed word of 64 bits can count have no more bits than a significand after its first one. -/
theorem age_le (now : Int64) (c : Contribution) : c.age now ≤ 2 ^ 52 := by
  have hsaturate : saturate (now.toInt - c.lastCommit.toInt) ≤ Int64.maxValue.toInt := by
    unfold saturate
    have hbounds : Int64.minValue.toInt ≤ Int64.maxValue.toInt := by decide
    omega
  calc c.age now ≤ Int64.maxValue.toInt.tdiv 3600 := Int.tdiv_le_tdiv (by decide) hsaturate
    _ ≤ 2 ^ 52 := by decide

theorem decay_of_neg {age : Int} (h : age < 0) : decay age = .undefined := if_pos h

theorem decay_zero : decay 0 = .finite 0 := Numeric.powOnePointEight_zero

theorem decay_mono {a b : Int} (ha : 1 ≤ a) (h : a ≤ b) (hbits : a ≤ 2 ^ 52) :
    ∃ u v, decay a = .finite u ∧ decay b = .finite v ∧ 1 ≤ u ∧ u ≤ v := by
  have hpower : ∀ {age : Int}, 1 ≤ age → decay age = Numeric.powOnePointEight age.toNat :=
    fun hage => if_neg (by omega)
  rw [hpower ha, hpower (ha.trans h)]
  exact Numeric.powOnePointEight_mono (by omega) (by omega) (by omega)

section Score

variable {now : Int64} {c d : Contribution}

theorem score_of_age_neg (h : c.age now < 0) : c.score now = .undefined := by
  rw [score, decay_of_neg h, Binary64.div_undefined]

theorem roundSignificant_lineCount_pos (h : 1 ≤ c.lineCount.toNat) : 0 < roundSignificant c.lineCount.toNat :=
  Numeric.roundSignificant_pos (by exact_mod_cast h)

theorem score_of_age_zero (hlines : 1 ≤ c.lineCount.toNat) (h : c.age now = 0) : c.score now = .infinite := by
  rw [score, h, decay_zero]
  exact Binary64.finite_div_zero (roundSignificant_lineCount_pos hlines).ne'

theorem score_of_age_pos (h : 1 ≤ c.age now) :
    ∃ u, 0 < u ∧ c.score now = .ofRat (roundSignificant c.lineCount.toNat / u) := by
  obtain ⟨u, -, hu, -, hone, -⟩ := decay_mono h le_rfl (age_le now c)
  have hpos : 0 < u := zero_lt_one.trans_le hone
  refine ⟨u, hpos, ?_⟩
  rw [score, hu]
  exact Binary64.finite_div_finite hpos.ne'

theorem score_of_no_lines (hlines : c.lineCount.toNat = 0) : (Binary64.finite 0).less (c.score now) = false := by
  rcases lt_trichotomy (c.age now) 0 with hneg | hage | hpos
  · rw [score_of_age_neg hneg]
    rfl
  · rw [score, hage, decay_zero, hlines, Binary64.ofNat_zero, Binary64.zero_div_zero]
    rfl
  · obtain ⟨u, -, hscore⟩ := score_of_age_pos hpos
    rw [hscore, hlines, Nat.cast_zero, Numeric.roundSignificant_zero, zero_div, Binary64.ofRat_zero]
    exact Binary64.less_irrefl _

/-- The contributions whose score counts are those that can own a file. -/
theorem zero_less_score_iff : (Binary64.finite 0).less (c.score now) = true ↔ c.IsEligible now := by
  constructor
  · intro h
    refine ⟨?_, ?_⟩
    · by_contra hlines
      rw [score_of_no_lines (by omega)] at h
      exact Bool.false_ne_true h
    · by_contra hneg
      rw [score_of_age_neg (by omega)] at h
      exact Bool.false_ne_true h
  · rintro ⟨hlines, hage⟩
    rcases hage.eq_or_lt with hzero | hpos
    · rw [score_of_age_zero hlines hzero.symm]
      rfl
    · obtain ⟨u, hu, hscore⟩ := score_of_age_pos hpos
      have hquotient := div_pos (roundSignificant_lineCount_pos hlines) hu
      rw [hscore]
      exact Binary64.less_finite_iff.mpr (Numeric.roundSignificant_pos hquotient)

/-- A contribution that has as many lines and is no older does not have a lower score. -/
theorem not_less_score (hd : d.IsEligible now) (hlines : c.lineCount ≤ d.lineCount) (hage : d.age now ≤ c.age now) :
    (d.score now).less (c.score now) = false := by
  rcases hd.2.eq_or_lt with hzero | hpos
  · rw [score_of_age_zero hd.1 hzero.symm]
    rfl
  · obtain ⟨u, v, hu, hv, hone, huv⟩ := decay_mono hpos hage (age_le now d)
    rw [score, score, hu, hv]
    refine Binary64.not_less_div ?_ ?_ (zero_lt_one.trans_le hone) huv
    · exact (Numeric.fitsSignificand_roundDown _).nonneg.trans (Numeric.roundDown_le_roundSignificant _)
    · exact Numeric.roundSignificant_mono (by exact_mod_cast UInt64.le_iff_toNat_le.mp hlines)

end Score

/-! ### The search -/

/-- The first of the contributions that can own a file among those of them with the highest score. -/
def IsLeader (now : Int64) (cs : List Contribution) (c : Contribution) : Prop :=
  ∃ before after, cs = before ++ c :: after ∧ c.IsEligible now ∧
    (∀ d ∈ before, d.IsEligible now → (d.score now).less (c.score now) = true) ∧
    ∀ d ∈ after, d.IsEligible now → (c.score now).less (d.score now) = false

namespace IsLeader

variable {now : Int64} {cs : List Contribution} {c d : Contribution}

theorem isEligible (h : IsLeader now cs c) : c.IsEligible now := by
  obtain ⟨-, -, -, hc, -⟩ := h
  exact hc

theorem mem (h : IsLeader now cs c) : c ∈ cs := by
  obtain ⟨before, after, rfl, -⟩ := h
  simp

theorem not_less (h : IsLeader now cs c) (hd : d ∈ cs) (heligible : d.IsEligible now) :
    (c.score now).less (d.score now) = false := by
  obtain ⟨before, after, rfl, -, hbefore, hafter⟩ := h
  rcases List.mem_append.mp hd with hd | hd
  · exact Binary64.not_less_of_less (hbefore d hd heligible)
  · rcases List.mem_cons.mp hd with rfl | hd
    · exact Binary64.less_irrefl _
    · exact hafter d hd heligible

theorem singleton_of_forall_not (hcs : ∀ d ∈ cs, ¬ d.IsEligible now) (hc : c.IsEligible now) :
    IsLeader now (cs ++ [c]) c :=
  ⟨cs, [], rfl, hc, fun d hd heligible => absurd heligible (hcs d hd), by simp⟩

/-- A contribution with a higher score takes the lead. -/
theorem concat_of_less (h : IsLeader now cs c) (hd : d.IsEligible now)
    (hless : (c.score now).less (d.score now) = true) : IsLeader now (cs ++ [d]) d := by
  refine ⟨cs, [], rfl, hd, ?_, by simp⟩
  intro e he heligible
  have hdefined := (Binary64.ne_undefined_of_less (zero_less_score_iff.mpr heligible)).2
  exact Binary64.less_of_not_less_of_less hdefined (h.not_less he heligible) hless

/-- A contribution without a higher score does not take the lead. -/
theorem concat_of_not_less (h : IsLeader now cs c) (hnot : (c.score now).less (d.score now) = false) :
    IsLeader now (cs ++ [d]) c := by
  obtain ⟨before, after, rfl, hc, hbefore, hafter⟩ := h
  refine ⟨before, after ++ [d], by simp, hc, hbefore, ?_⟩
  intro e he heligible
  rcases List.mem_append.mp he with he | he
  · exact hafter e he heligible
  · rw [List.mem_singleton.mp he]
    exact hnot

end IsLeader

/-- What the search holds: zero and nobody if no contribution can own the file, else the leader and its score. -/
theorem foldl_lead (now : Int64) (cs : List Contribution) :
    (∀ c ∈ cs, ¬ c.IsEligible now) ∧ cs.foldl (lead now) (.finite 0, none) = (.finite 0, none) ∨
      ∃ c, IsLeader now cs c ∧ cs.foldl (lead now) (.finite 0, none) = (c.score now, some c) := by
  induction cs using List.reverseRecOn with
  | nil => exact .inl ⟨by simp, rfl⟩
  | append_singleton cs d ih =>
    rw [List.foldl_append, List.foldl_cons, List.foldl_nil]
    rcases ih with ⟨hnone, hfold⟩ | ⟨c, hc, hfold⟩
    · rw [hfold]
      by_cases hd : d.IsEligible now
      · have hlead : lead now (.finite 0, none) d = (d.score now, some d) := if_pos (zero_less_score_iff.mpr hd)
        exact .inr ⟨d, IsLeader.singleton_of_forall_not hnone hd, hlead⟩
      · have hlead : lead now (.finite 0, none) d = (.finite 0, none) := if_neg (mt zero_less_score_iff.mp hd)
        refine .inl ⟨?_, hlead⟩
        simpa [or_imp, forall_and] using ⟨hnone, hd⟩
    · rw [hfold]
      cases hless : (c.score now).less (d.score now) with
      | true =>
        have hd := zero_less_score_iff.mp (Binary64.less_trans (zero_less_score_iff.mpr hc.isEligible) hless)
        exact .inr ⟨d, hc.concat_of_less hd hless, if_pos hless⟩
      | false => exact .inr ⟨c, hc.concat_of_not_less hless, if_neg (by simp [hless])⟩

theorem leader?_eq_none_iff {now : Int64} {cs : List Contribution} :
    leader? now cs = none ↔ ∀ c ∈ cs, ¬ c.IsEligible now := by
  unfold leader?
  rcases foldl_lead now cs with ⟨hnone, hfold⟩ | ⟨c, hc, hfold⟩
  · simpa [hfold] using hnone
  · simpa [hfold] using ⟨c, hc.mem, hc.isEligible⟩

theorem isLeader_of_leader? {now : Int64} {cs : List Contribution} {c : Contribution} (h : leader? now cs = some c) :
    IsLeader now cs c := by
  unfold leader? at h
  rcases foldl_lead now cs with ⟨-, hfold⟩ | ⟨d, hd, hfold⟩
  · simp [hfold] at h
  · rw [hfold, Option.some.injEq] at h
    exact h ▸ hd

namespace IsLeader

variable {now : Int64} {cs : List Contribution} {c : Contribution}

/-- The leader is the first contribution with a property which it has itself, if only contributions have it that can own
the file and do not have a lower score. -/
theorem find?_eq (h : IsLeader now cs c) {p : Contribution → Prop} [DecidablePred p] (hc : p c)
    (hp : ∀ d, p d → d.IsEligible now ∧ (d.score now).less (c.score now) = false) :
    (cs.find? fun d => p d) = some c := by
  obtain ⟨before, after, hcs, -, hbefore, -⟩ := h
  refine List.find?_eq_some_iff_append.mpr ⟨decide_eq_true hc, before, after, hcs, ?_⟩
  intro d hd
  rw [Bool.not_eq_true', decide_eq_false_iff_not]
  intro hpd
  obtain ⟨heligible, hnot⟩ := hp d hpd
  exact Bool.false_ne_true (hnot.symm.trans (hbefore d hd heligible))

theorem find?_highest (h : IsLeader now cs c) :
    (cs.find? fun d => d.IsEligible now ∧ ∀ e ∈ cs, e.IsEligible now → (d.score now).less (e.score now) = false)
      = some c := by
  refine h.find?_eq ⟨h.isEligible, fun e he => h.not_less he⟩ ?_
  rintro d ⟨heligible, hhighest⟩
  exact ⟨heligible, hhighest c h.mem h.isEligible⟩

/-- A contribution of the current hour leads if there is one, and then the first of them does. -/
theorem find?_current (h : IsLeader now cs c) (hcurrent : ∃ d ∈ cs, d.IsEligible now ∧ d.age now = 0) :
    (cs.find? fun d => d.IsEligible now ∧ d.age now = 0) = some c := by
  obtain ⟨d, hd, heligible, hage⟩ := hcurrent
  have hinfinite := h.not_less hd heligible
  rw [score_of_age_zero heligible.1 hage] at hinfinite
  refine h.find?_eq ⟨h.isEligible, ?_⟩ ?_
  · by_contra hne
    obtain ⟨u, -, hscore⟩ := score_of_age_pos (lt_of_le_of_ne h.isEligible.2 (Ne.symm hne))
    rw [hscore] at hinfinite
    exact Bool.noConfusion hinfinite
  · rintro e ⟨heligible, hage⟩
    refine ⟨heligible, ?_⟩
    rw [score_of_age_zero heligible.1 hage]
    rfl

theorem lt_age (h : IsLeader now cs c) : ∃ before after, cs = before ++ c :: after ∧
    ∀ d ∈ before, d.IsEligible now → c.lineCount ≤ d.lineCount → c.age now < d.age now := by
  obtain ⟨before, after, hcs, -, hbefore, -⟩ := h
  refine ⟨before, after, hcs, ?_⟩
  intro d hd heligible hlines
  by_contra hage
  exact Bool.false_ne_true ((not_less_score heligible hlines (not_lt.mp hage)).symm.trans (hbefore d hd heligible))

end IsLeader

/-- The leader is the first contribution whose score no other exceeds, where only those that can own the file count. -/
theorem leader?_eq_find?_highest (now : Int64) (cs : List Contribution) : leader? now cs =
    cs.find? fun c => c.IsEligible now ∧ ∀ d ∈ cs, d.IsEligible now → (c.score now).less (d.score now) = false := by
  cases hleader : leader? now cs with
  | none =>
    symm
    rw [List.find?_eq_none]
    intro c hc hdecide
    exact leader?_eq_none_iff.mp hleader c hc (of_decide_eq_true hdecide).1
  | some c => exact (isLeader_of_leader? hleader).find?_highest.symm

theorem leader?_eq_find?_current {now : Int64} {cs : List Contribution}
    (hcurrent : ∃ c ∈ cs, c.IsEligible now ∧ c.age now = 0) :
    leader? now cs = cs.find? fun c => c.IsEligible now ∧ c.age now = 0 := by
  cases hleader : leader? now cs with
  | none =>
    obtain ⟨d, hd, heligible, -⟩ := hcurrent
    exact absurd heligible (leader?_eq_none_iff.mp hleader d hd)
  | some c => exact ((isLeader_of_leader? hleader).find?_current hcurrent).symm

/-- The age of a contribution is counted in whole hours, cut off after the seconds have been saturated.  Nobody owns a
file to which nobody contributed a line with an age that is not negative.  Otherwise the first contribution of the
current hour leads if there is one, and if not, the first one whose score no other exceeds, where only contributions
that can own the file count.  So a contribution that leads comes after no other that can, has as many lines and is no
older. -/
theorem owner_of_contributions (now : Int64) (cs : List Contribution) :
    let age : Contribution → Int := fun c =>
      (max (-2 ^ 63) (min (now.toInt - c.lastCommit.toInt) (2 ^ 63 - 1))).tdiv 3600
    let eligible : Contribution → Bool := fun c => 1 ≤ c.lineCount.toNat ∧ 0 ≤ age c
    let score : Contribution → Binary64 := fun c =>
      .ofNat c.lineCount.toNat / if age c < 0 then .undefined else Numeric.powOnePointEight (age c).toNat
    (leader? now cs = none ↔ ∀ c ∈ cs, ¬ eligible c) ∧
      (leader? now cs = none → owner now cs = "Unknown".toList) ∧
      (∀ c, leader? now cs = some c → owner now cs = c.name) ∧
      ((∃ c ∈ cs, eligible c ∧ age c = 0) → leader? now cs = cs.find? fun c => eligible c ∧ age c = 0) ∧
      ((¬ ∃ c ∈ cs, eligible c ∧ age c = 0) → leader? now cs = cs.find? fun c =>
        eligible c ∧ ∀ d ∈ cs, eligible d → (score c).less (score d) = false) ∧
      ∀ c, leader? now cs = some c → ∃ before after, cs = before ++ c :: after ∧
        ∀ d ∈ before, eligible d → c.lineCount ≤ d.lineCount → age c < age d := by
  intro age eligible score
  have hage : ∀ c, age c = c.age now := fun _ => rfl
  have heligible : ∀ c, eligible c = true ↔ c.IsEligible now := fun c => decide_eq_true_iff
  have hscore : ∀ c, score c = c.score now := fun _ => rfl
  simp only [heligible, hage, hscore]
  refine ⟨leader?_eq_none_iff, ?_, ?_, leader?_eq_find?_current, fun _ => leader?_eq_find?_highest now cs,
    fun c hc => (isLeader_of_leader? hc).lt_age⟩
  · intro hnone
    rw [owner, hnone]
    rfl
  · intro c hc
    rw [owner, hc]
    rfl

/-- A contribution without a line and one of two hours ahead do not count, and of two that are alike the first one owns
the file; with a line of the current hour after them, that one does. -/
theorem owner_of_alike_contributions :
    let now : Int64 := 1700000000
    let without : Contribution := ⟨"without".toList, 0, 1699999990⟩
    let ahead : Contribution := ⟨"ahead".toList, 500, 1700007200⟩
    let first : Contribution := ⟨"first".toList, 40, 1699992800⟩
    let second : Contribution := ⟨"second".toList, 40, 1699992700⟩
    let current : Contribution := ⟨"current".toList, 1, 1699996401⟩
    owner now [without, ahead] = "Unknown".toList ∧ owner now [without, ahead, first, second] = "first".toList ∧
      owner now [without, ahead, first, second, current] = "current".toList := by
  intro now without ahead first second current
  refine ⟨?_, ?_, ?_⟩
  · obtain ⟨hnone, hunknown, -⟩ := owner_of_contributions now [without, ahead]
    exact hunknown (hnone.mpr (by decide))
  · obtain ⟨-, -, hname, -, hhighest, -⟩ := owner_of_contributions now [without, ahead, first, second]
    refine hname first ((hhighest (by decide)).trans ?_)
    rw [List.find?_cons_of_neg (by decide), List.find?_cons_of_neg (by decide), List.find?_cons_of_pos]
    refine decide_eq_true ⟨by decide, ?_⟩
    simp only [List.forall_mem_cons, List.not_mem_nil, false_implies, implies_true, and_true]
    refine ⟨fun hwithout => absurd hwithout (by decide), fun hahead => absurd hahead (by decide), ?_, ?_⟩
    · exact fun _ => Binary64.less_irrefl _
    · have hage : second.age now = first.age now := by decide
      have hscore : second.score now = first.score now := by rw [score, score, hage]
      have hnot : (first.score now).less (second.score now) = false := by
        rw [hscore]
        exact Binary64.less_irrefl (first.score now)
      exact fun _ => hnot
  · obtain ⟨-, -, hname, hcurrent, -⟩ := owner_of_contributions now [without, ahead, first, second, current]
    exact hname current ((hcurrent ⟨current, by simp, by decide⟩).trans (by decide))

end SourceIndex.Contribution
