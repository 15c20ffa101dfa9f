import SourceIndex.Proofs.Numeric.QuotientOrder
import SourceIndex.Proofs.Ownership.MendedNames

/-!
# Shares of the files in a description

A share of the files is a rounded quotient, but below `2 ^ 52` files it exceeds one tenth exactly if ten times the files
of the contributor are more than all files (`reliedUponShare_less_share_iff`).  With no files at all it is infinite, or
undefined for a contributor without files, so the rule holds there too.  The average of shares that do not exceed one is
rounded after each addition, and is one hundred percent at most all the same (`averageOwnership_le`).
-/

namespace SourceIndex.ProjectStats

open Binary64 (finite ofNat ofRat)

/-- The sentence about those whom the project relies on, mended in their names; nothing if there are none. -/
def mendedReliance (names : List Text) : Text :=
  if names = [] then []
  else "The project relies on the following people; ".toList ++ mend (", ".toList.intercalate names) ++ ". ".toList

variable (stats : ProjectStats)

/-- The contributors with more than a tenth of the files. -/
def aboveTenth : List OwnerCount :=
  stats.owners.filter fun owner => stats.totalFiles.toNat < 10 * owner.count.toNat

/-! ### Those whom the project relies on -/

private theorem share_of_no_files {owner : OwnerCount} (h : stats.totalFiles.toNat = 0) :
    stats.share owner = if owner.count.toNat = 0 then .undefined else .infinite := by
  rw [share, h, Binary64.ofNat_zero]
  split
  · next hcount => rw [hcount, Binary64.ofNat_zero, Binary64.zero_div_zero]
  · next hcount =>
    have hpos : 0 < Numeric.roundSignificant owner.count.toNat :=
      Numeric.roundSignificant_pos (by exact_mod_cast Nat.pos_of_ne_zero hcount)
    exact Binary64.finite_div_zero hpos.ne'

theorem reliedUponShare_less_share_iff (h : stats.totalFiles.toNat < 2 ^ 52) (owner : OwnerCount) :
    reliedUponShare.less (stats.share owner) = true ↔ stats.totalFiles.toNat < 10 * owner.count.toNat := by
  rcases Nat.eq_zero_or_pos stats.totalFiles.toNat with hnone | hpos
  · rw [share_of_no_files stats hnone, hnone]
    split
    · next hcount => exact iff_of_false Bool.false_ne_true (by omega)
    · next hcount => exact iff_of_true rfl (by omega)
  · have hgap : Numeric.roundSignificant (((1 : Nat) : Rat) / (10 : Nat))
        < Numeric.roundSignificant (((1 : Nat) : Rat) / (10 : Nat) + 1 / ((10 : Nat) * (2 ^ 52 : Nat))) := by
      decide +kernel
    rw [← Nat.one_mul stats.totalFiles.toNat]
    exact Binary64.ofRat_less_div_iff hpos h.le (by decide) (by decide) hgap

theorem reliedUpon_eq_aboveTenth (h : stats.totalFiles.toNat < 2 ^ 52) : stats.reliedUpon = stats.aboveTenth := by
  refine List.filter_congr fun owner _ => ?_
  rw [Bool.eq_iff_iff, decide_eq_true_iff]
  exact reliedUponShare_less_share_iff stats h owner

theorem mend_relianceSentence :
    mend stats.relianceSentence = mendedReliance (stats.reliedUpon.map OwnerCount.owner) := by
  have hstop : mend ". ".toList = ". ".toList := mend_of_comma_notMem (by decide)
  unfold relianceSentence mendedReliance
  simp only [List.isEmpty_iff, List.map_eq_nil_iff]
  split
  · rfl
  · rw [mend_append not_continues_stop, mend_append_of_comma_notMem comma_notMem_relianceIntro,
      hstop]

theorem mendedReliance_eq_nil_iff {names : List Text} : mendedReliance names = [] ↔ names = [] := by
  unfold mendedReliance
  split
  · next hnone => exact iff_of_true rfl hnone
  · next hsome => exact iff_of_false (List.append_ne_nil_of_right_ne_nil _ (by decide)) hsome

/-! ### The average -/

private theorem not_one_less_share {owner : OwnerCount} (h : owner.count ≤ stats.totalFiles) :
    (finite 1).less (stats.share owner) = false := by
  have hcount : owner.count.toNat ≤ stats.totalFiles.toNat := h
  rcases Nat.eq_zero_or_pos stats.totalFiles.toNat with hnone | hpos
  · rw [share_of_no_files stats hnone, if_pos (by omega)]
    rfl
  · have hround : 0 < Numeric.roundSignificant stats.totalFiles.toNat :=
      Numeric.roundSignificant_pos (by exact_mod_cast hpos)
    have hself : (finite (Numeric.roundSignificant owner.count.toNat)).less (ofNat owner.count.toNat) = false :=
      Binary64.less_irrefl _
    have hle : Numeric.roundSignificant owner.count.toNat ≤ Numeric.roundSignificant stats.totalFiles.toNat :=
      Numeric.roundSignificant_mono (by exact_mod_cast hcount)
    exact Binary64.not_less_of_le (Numeric.roundSignificant_div_le_one hround hle)
      (Binary64.not_less_div_finite hround hself)

theorem averageOwnership_le (h : ∀ owner ∈ stats.owners, owner.count ≤ stats.totalFiles) :
    stats.averageOwnership ≤ 100 := by
  have hshares : ∀ share ∈ stats.owners.map stats.share, (finite 1).less share = false :=
    List.forall_mem_map.mpr fun owner howner => not_one_less_share stats (h owner howner)
  have haverage := Binary64.not_less_average hshares
  rw [List.foldl_map, List.length_map] at haverage
  have hround : Numeric.roundSignificant (100 : Nat) = (100 : Nat) := Numeric.roundSignificant_natCast (by decide)
  have hhundred : ofNat 100 = finite (100 : Nat) := congrArg finite hround
  unfold averageOwnership
  refine Binary64.truncate_le maxPercentage ?_
  rw [hhundred]
  refine Binary64.not_less_of_le ?_ (Binary64.not_less_mul (Nat.cast_nonneg 100) haverage)
  rw [one_mul, hround]

/-- Below `2 ^ 52` files, those whom the description says the project relies on are the contributors with more than a
tenth of the files, in their order, and the sentence about them is left out exactly if there are none.  The average is
one hundred percent at most if no contributor has more files than there are. -/
theorem describe_shares (h : stats.totalFiles.toNat < 2 ^ 52) :
    stats.reliedUpon = stats.aboveTenth ∧
      stats.describe = stats.contributorSentence ++ mend stats.languageSentence ++ mend stats.busFactorSentence
          ++ ("The average person who commits this project has ownership of ".toList ++ decimal stats.averageOwnership
            ++ "% of files. ".toList)
          ++ mendedReliance (stats.aboveTenth.map OwnerCount.owner) ∧
      (mendedReliance (stats.aboveTenth.map OwnerCount.owner) = [] ↔
        ∀ owner ∈ stats.owners, 10 * owner.count.toNat ≤ stats.totalFiles.toNat) ∧
      ((∀ owner ∈ stats.owners, owner.count ≤ stats.totalFiles) → stats.averageOwnership ≤ 100) := by
  have hreliance : mend stats.relianceSentence = mendedReliance (stats.aboveTenth.map OwnerCount.owner) := by
    rw [mend_relianceSentence, reliedUpon_eq_aboveTenth stats h]
  refine ⟨reliedUpon_eq_aboveTenth stats h, ?_, ?_, averageOwnership_le stats⟩
  · exact hreliance ▸ describe_eq stats
  · rw [mendedReliance_eq_nil_iff, List.map_eq_nil_iff, aboveTenth, List.filter_eq_nil_iff]
    simp only [decide_eq_true_iff, not_lt]

/-- A contributor with one of ten files is not one whom the project relies on, and the one with two is. -/
theorem describe_shares_of_ten_files :
    let stats : ProjectStats := ⟨10, [⟨"C".toList, 10⟩], [⟨"Ann".toList, 7⟩, ⟨"Bob".toList, 1⟩, ⟨"Eve".toList, 2⟩]⟩
    stats.totalFiles.toNat < 2 ^ 52 ∧
      stats.averageOwnership ≤ 100 ∧
      "The project relies on the following people; Ann, Eve. ".toList <:+ stats.describe := by
  intro stats
  have hfew : stats.totalFiles.toNat < 2 ^ 52 := by decide
  obtain ⟨-, hdescribe, -, haverage⟩ := describe_shares stats hfew
  refine ⟨hfew, haverage (by decide), ?_⟩
  have hreliance : mendedReliance ["Ann".toList, "Eve".toList]
      = "The project relies on the following people; Ann, Eve. ".toList := by decide +kernel
  rw [hdescribe, ← hreliance]
  exact List.suffix_append _ _

end SourceIndex.ProjectStats
