import Mathlib.Data.List.Induction
import SourceIndex.Proofs.File.ExtensionRules
import SourceIndex.Proofs.Numeric.QuotientOrder

/-!
# The share of ASCII in a file

If no list has an extension of a file's name, its first lines are sampled and their code units counted: a character
beyond U+FFFF has two, so the units are a matter of three counts of characters (`asciiUnits_eq`, `otherUnits_eq`).  The
share of ASCII is rounded, and 3/10 is no binary64 number, but with less than `2 ^ 51` units the comparison comes out
as that of the exact numbers (`groundOfUnits_eq`), also right at the limit.
-/

namespace SourceIndex

theorem Text.countUnits_eq (p : Char → Bool) (t : Text) : countUnits p t =
    t.countP (fun c => p c && c.toNat ≤ 0xFFFF) + 2 * t.countP (fun c => p c && !(c.toNat ≤ 0xFFFF : Bool)) := by
  induction t using List.reverseRecOn with
  | nil => rfl
  | append_singleton t c ih =>
    have hstep : countUnits p (t ++ [c]) = if p c then countUnits p t + unitCount c else countUnits p t := by
      simp [countUnits]
    rw [hstep, List.countP_append, List.countP_append, List.countP_singleton, List.countP_singleton, ih, unitCount]
    by_cases hp : p c = true
    · by_cases hc : c.toNat ≤ 0xFFFF
      · simp [hp, hc]
        omega
      · simp [hp, hc]
        omega
    · simp [hp]

namespace Policy

open Extension (Matches)

/-! ### Units -/

section Units

variable (lines : List Text)

theorem asciiUnits_eq : asciiUnits lines = (lines.take 10000).flatten.countP fun c => c.toNat ≤ 0x80 := by
  have hsmall : (fun c => countsAsAscii c && c.toNat ≤ 0xFFFF) = fun c : Char => decide (c.toNat ≤ 0x80) := by
    funext c
    rw [Bool.eq_iff_iff]
    simp only [countsAsAscii, Bool.and_eq_true, decide_eq_true_eq]
    omega
  have hlarge : (fun c => countsAsAscii c && !(c.toNat ≤ 0xFFFF : Bool)) = fun _ => false := by
    funext c
    rw [Bool.eq_iff_iff]
    simp only [countsAsAscii, Bool.and_eq_true, Bool.not_eq_true', decide_eq_true_eq, decide_eq_false_iff_not,
      Bool.false_eq_true, iff_false]
    omega
  rw [asciiUnits, Text.countUnits_eq, hsmall, hlarge, List.countP_false]
  rfl

theorem otherUnits_eq : otherUnits lines =
    (lines.take 10000).flatten.countP (fun c => 0x80 < c.toNat ∧ c.toNat ≤ 0xFFFF)
      + 2 * (lines.take 10000).flatten.countP fun c => 0xFFFF < c.toNat := by
  have hsmall : (fun c => !countsAsAscii c && c.toNat ≤ 0xFFFF)
      = fun c : Char => decide (0x80 < c.toNat ∧ c.toNat ≤ 0xFFFF) := by
    funext c
    rw [Bool.eq_iff_iff]
    simp only [countsAsAscii, Bool.and_eq_true, Bool.not_eq_true', decide_eq_true_eq, decide_eq_false_iff_not]
    omega
  have hlarge : (fun c => !countsAsAscii c && !(c.toNat ≤ 0xFFFF : Bool))
      = fun c : Char => decide (0xFFFF < c.toNat) := by
    funext c
    rw [Bool.eq_iff_iff]
    simp only [countsAsAscii, Bool.and_eq_true, Bool.not_eq_true', decide_eq_true_eq, decide_eq_false_iff_not]
    omega
  rw [otherUnits, Text.countUnits_eq, hsmall, hlarge]
  rfl

end Units

/-! ### The share -/

/-- Short of the least share, as far as units can be counted, is short of it after rounding. -/
theorem less_minAsciiShare_iff {ascii units : Nat} (hascii : ascii ≤ units) (hpos : 0 < units) (h : units < 2 ^ 51) :
    (Binary64.ofNat ascii / .ofNat units).less minAsciiShare = true ↔ 10 * ascii < 3 * units := by
  have hgap : Numeric.roundSignificant (((3 : Nat) : Rat) / (10 : Nat) - 1 / ((10 : Nat) * (2 ^ 51 : Nat)))
      < Numeric.roundSignificant (((3 : Nat) : Rat) / (10 : Nat)) := by
    decide +kernel
  exact Binary64.div_less_ofRat_iff hascii hpos h.le (by decide) (by decide) hgap

theorem groundOfUnits_eq {ascii other : Nat} (h : ascii + other < 2 ^ 51) : groundOfUnits ascii other =
    if other = 0 then .enoughAscii
    else if ascii = 0 then .noAscii
    else if 10 * ascii < 3 * (ascii + other) then .littleAscii
    else .enoughAscii := by
  unfold groundOfUnits
  by_cases hother : other = 0
  · rw [if_pos hother, if_pos hother]
  · have hshare := less_minAsciiShare_iff (Nat.le_add_right ascii other) (by omega) h
    rw [if_neg hother, if_neg hother]
    exact if_congr Iff.rfl rfl (if_congr hshare rfl rfl)

/-- If no list has an extension of the name and guessing is on, the first lines of a file decide, and exactly: it is
binary if it has none but other units, or if more than seven of ten units are others. -/
theorem finding_of_units {settings : Settings} {languages : List Language} {name : Text} {lines : List Text}
    (hlines : lines ≠ []) (hguess : settings.guessBinary = true) (hwhite : ¬ Matches settings.whitelist name)
    (hblack : ¬ Matches settings.blacklist name) (hknown : ¬ Matches (languages.flatMap Language.extensions) name) :
    let p := ofSettings settings languages
    let sample := (lines.take 10000).flatten
    let ascii := sample.countP fun c => c.toNat ≤ 0x80
    let other :=
      sample.countP (fun c => 0x80 < c.toNat ∧ c.toNat ≤ 0xFFFF) + 2 * sample.countP fun c => 0xFFFF < c.toNat
    (ascii + other < 2 ^ 51 → p.finding name lines =
        if other = 0 then ⟨false, []⟩
        else if ascii = 0 then ⟨true, "all characters found non-ascii".toList⟩
        else if 10 * ascii < 3 * (ascii + other) then ⟨true, "only 30% of characters are non-ascii".toList⟩
        else ⟨false, []⟩) ∧
      ∀ lines', lines'.take 10000 = lines.take 10000 → p.finding name lines' = p.finding name lines := by
  intro p sample ascii other
  have hground : ∀ {lines' : List Text}, lines' ≠ [] →
      p.ground name lines' = groundOfUnits (asciiUnits lines') (otherUnits lines') := by
    intro lines' hlines'
    rw [ground_ofSettings settings languages name hlines', if_neg hwhite, if_neg hblack, if_neg hknown, hguess]
    rfl
  constructor
  · intro hunits
    rw [finding, hground hlines, asciiUnits_eq, otherUnits_eq, groundOfUnits_eq hunits, apply_ite Ground.finding,
      apply_ite Ground.finding, apply_ite Ground.finding]
    rfl
  · intro lines' hsample
    have hlines' : lines' ≠ [] := by
      rintro rfl
      have htake : lines.take 10000 = [] := by rw [← hsample, List.take_nil]
      simp [hlines] at htake
    rw [finding, finding, hground hlines', hground hlines, asciiUnits_eq, asciiUnits_eq, otherUnits_eq, otherUnits_eq,
      hsample]

/-- Three units in ten are enough, of which one is U+0080, with a character of two units among the others; three in
eleven are not.  What follows ten thousand lines is not looked at. -/
theorem finding_of_three_units_in_ten :
    let settings := Settings.default
    let p := ofSettings settings []
    let name := "blob".toList
    let lines := ["a\u0080b".toList, Char.ofNat 0x1F980 :: List.replicate 5 '\u00ff']
    let ascii := List.replicate 10000 "ascii".toList
    lines ≠ [] ∧ settings.guessBinary = true ∧ ¬ Matches settings.whitelist name ∧ ¬ Matches settings.blacklist name ∧
      p.finding name lines = ⟨false, []⟩ ∧
      p.finding name ("\u00ff".toList :: lines) = ⟨true, "only 30% of characters are non-ascii".toList⟩ ∧
      p.finding name (ascii ++ lines) = p.finding name ascii := by
  intro settings p name lines ascii
  have hguess : settings.guessBinary = true := rfl
  have hwhite : ¬ Matches settings.whitelist name := by decide +kernel
  have hblack : ¬ Matches settings.blacklist name := by decide +kernel
  have hknown : ¬ Matches (([] : List Language).flatMap Language.extensions) name := by decide +kernel
  have hlines : lines ≠ [] := by decide
  have hlength : ascii.length = 10000 := List.length_replicate
  have hascii : ascii ≠ [] := List.ne_nil_of_length_pos (by omega)
  have hequal := (finding_of_units hlines hguess hwhite hblack hknown).1 (by decide +kernel)
  have hmore := (finding_of_units (List.cons_ne_nil "\u00ff".toList lines) hguess hwhite hblack hknown).1
    (by decide +kernel)
  have hrest := (finding_of_units hascii hguess hwhite hblack hknown).2 (ascii ++ lines)
  refine ⟨hlines, hguess, hwhite, hblack, ?_, ?_, ?_⟩
  · rw [hequal]
    decide +kernel
  · rw [hmore]
    decide +kernel
  · exact hrest (List.take_append_of_le_length hlength.ge)

end Policy

end SourceIndex
