import SourceIndex.Proofs.Ownership.OwnerSelection

/-!
# Commits in the future

The division by the seconds of an hour cuts off toward zero, so a commit has the age 0 from an hour before the present
to an hour after it (`age_eq_zero_iff`).  A commit that is an hour or more ahead has a negative age and never wins, but
one that is less ahead counts as current: it leads exactly if it is the first current one (`leader_of_future_iff`).
-/

namespace SourceIndex.Contribution

/-! ### Ages around the present -/

section Age

variable (now : Int64) (c : Contribution)

private theorem saturate_eq {n : Int} : saturate n = max (-9223372036854775808) (min n 9223372036854775807) := rfl

private theorem tdiv_nonneg_iff {n : Int} : 0 ≤ n.tdiv 3600 ↔ -3600 < n := by
  rcases le_or_gt 0 n with h | h
  · exact iff_of_true (Int.tdiv_nonneg h (by decide)) (by omega)
  · rw [← neg_neg n, Int.neg_tdiv, Int.tdiv_eq_ediv_of_nonneg (by omega)]
    omega

private theorem tdiv_eq_zero_iff {n : Int} : n.tdiv 3600 = 0 ↔ -3600 < n ∧ n < 3600 := by
  rcases le_or_gt 0 n with h | h
  · rw [Int.tdiv_eq_ediv_of_nonneg h]
    omega
  · rw [← neg_neg n, Int.neg_tdiv, Int.tdiv_eq_ediv_of_nonneg (by omega)]
    omega

/-- The bounds of a signed word lie too far away to change the sign of an age. -/
theorem age_nonneg_iff : 0 ≤ c.age now ↔ c.lastCommit.toInt < now.toInt + 3600 := by
  rw [age, tdiv_nonneg_iff, saturate_eq]
  omega

theorem age_eq_zero_iff :
    c.age now = 0 ↔ now.toInt - 3600 < c.lastCommit.toInt ∧ c.lastCommit.toInt < now.toInt + 3600 := by
  rw [age, tdiv_eq_zero_iff, saturate_eq]
  omega

end Age

/-! ### Current contributions -/

/-- Whether a contribution has a line, and its last commit is less than an hour away from the present, before it or
after it. -/
def IsCurrent (now : Int64) (c : Contribution) : Prop :=
  1 ≤ c.lineCount.toNat ∧ now.toInt - 3600 < c.lastCommit.toInt ∧ c.lastCommit.toInt < now.toInt + 3600

instance (now : Int64) (c : Contribution) : Decidable (c.IsCurrent now) :=
  inferInstanceAs (Decidable (_ ∧ _ ∧ _))

theorem isCurrent_iff {now : Int64} {c : Contribution} : c.IsCurrent now ↔ c.IsEligible now ∧ c.age now = 0 := by
  rw [IsCurrent, IsEligible, ← age_eq_zero_iff]
  constructor
  · rintro ⟨hlines, hage⟩
    exact ⟨⟨hlines, hage.ge⟩, hage⟩
  · rintro ⟨⟨hlines, -⟩, hage⟩
    exact ⟨hlines, hage⟩

section Leader

variable {now : Int64} {cs : List Contribution} {c : Contribution}

/-- If there are current contributions, the first of them leads. -/
theorem leader?_eq_find?_isCurrent (h : ∃ c ∈ cs, c.IsCurrent now) :
    leader? now cs = cs.find? fun c => c.IsCurrent now := by
  have hcurrent : ∃ c ∈ cs, c.IsEligible now ∧ c.age now = 0 := by simpa only [isCurrent_iff] using h
  simpa only [isCurrent_iff] using leader?_eq_find?_current hcurrent

/-- A contribution that leads is not an hour ahead. -/
theorem lastCommit_lt_of_leader? (h : leader? now cs = some c) : c.lastCommit.toInt < now.toInt + 3600 :=
  (age_nonneg_iff now c).mp (isLeader_of_leader? h).isEligible.2

theorem leader?_iff_of_future (hfuture : now < c.lastCommit) :
    leader? now cs = some c ↔ (cs.find? fun d => d.IsCurrent now) = some c := by
  have hahead : now.toInt < c.lastCommit.toInt := Int64.lt_iff_toInt_lt.mp hfuture
  constructor
  · intro hleader
    have hlead := isLeader_of_leader? hleader
    have hcurrent : c.IsCurrent now := ⟨hlead.isEligible.1, by omega, lastCommit_lt_of_leader? hleader⟩
    rw [← leader?_eq_find?_isCurrent ⟨c, hlead.mem, hcurrent⟩, hleader]
  · intro hfind
    have hcurrent := List.find?_some hfind
    rw [leader?_eq_find?_isCurrent ⟨c, List.mem_of_find?_eq_some hfind, of_decide_eq_true hcurrent⟩, hfind]

end Leader

/-- No contribution leads whose last commit is an hour or more in the future.  One that is less ahead leads exactly if
it is the first of the current contributions, so the leader is not in the future exactly if the first of them is not. -/
theorem leader_of_future_iff (now : Int64) (cs : List Contribution) :
    (∀ c, leader? now cs = some c → c.lastCommit.toInt < now.toInt + 3600) ∧
      (∀ c, now < c.lastCommit →
        (leader? now cs = some c ↔ (cs.find? fun d => d.IsCurrent now) = some c)) ∧
      ((∀ c, leader? now cs = some c → ¬ now < c.lastCommit) ↔
        ∀ c, (cs.find? fun d => d.IsCurrent now) = some c → ¬ now < c.lastCommit) := by
  refine ⟨fun c => lastCommit_lt_of_leader?, fun c => leader?_iff_of_future, ?_⟩
  constructor
  · intro h c hfind hfuture
    exact h c ((leader?_iff_of_future hfuture).mpr hfind) hfuture
  · intro h c hleader hfuture
    exact h c ((leader?_iff_of_future hfuture).mp hleader) hfuture

/-- One line of a commit that is one second ahead outweighs five hundred lines of an hour ago. -/
theorem commit_ahead_leads :
    let now : Int64 := 1700000000
    let past : Contribution := ⟨"past".toList, 500, 1699996400⟩
    let ahead : Contribution := ⟨"ahead".toList, 1, 1700000001⟩
    now < ahead.lastCommit ∧ leader? now [past, ahead] = some ahead ∧ owner now [past, ahead] = "ahead".toList := by
  intro now past ahead
  have hleader : leader? now [past, ahead] = some ahead := by
    rw [leader?_eq_find?_isCurrent ⟨ahead, by simp, by decide⟩]
    decide
  refine ⟨by decide, hleader, ?_⟩
  rw [owner, hleader]
  rfl

end SourceIndex.Contribution
