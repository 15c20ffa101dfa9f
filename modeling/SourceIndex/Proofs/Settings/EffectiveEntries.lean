import SourceIndex.Proofs.Settings.Validation
import SourceIndex.Proofs.Text.LowercaseContext

/-!
# Which entries take effect

A user writes an extension into a list to have it decide about the files that have the extension.  What is read is not
compared with the end of a file name as it is: making the policy takes one more dot off it, and the name is lowercased
as a whole, the entry alone.  The former makes no difference to the names with the extension unless it is a dot only
(`Extension.dot_dropDot_suffix_iff`); the latter makes one for a sigma at the front of the extension only
(`Text.dot_lowercase_suffix_iff`).  Every other extension takes effect (`Extension.matches_spelled_iff`).
-/

namespace SourceIndex

open Extension (Matches bare dropDot spelled)
open Text (lowercase)
open Text.Lowercase (endsCased beginsFinalSigma)

namespace Extension

theorem dropDot_eq_nil_iff {t : Text} (h : t ≠ []) : dropDot t = [] ↔ t = ['.'] := by
  by_cases hdot : t.head? = some '.'
  · obtain ⟨rest, rfl⟩ := List.head?_eq_some_iff.mp hdot
    simp [dropDot]
  · rw [dropDot_eq_self hdot]
    refine iff_of_false h ?_
    rintro rfl
    exact hdot rfl

theorem dropDot_lowercase (t : Text) : dropDot (lowercase t) = lowercase (dropDot t) := by
  by_cases hdot : t.head? = some '.'
  · obtain ⟨rest, rfl⟩ := List.head?_eq_some_iff.mp hdot
    rw [Text.lowercase_dot]
    rfl
  · rw [dropDot_eq_self hdot, dropDot_eq_self (mt (Text.head?_lowercase_eq_dot_iff t).mp hdot)]

theorem matches_iff_of_mem {entries : List Text} {entry name : Text} (h : entry ∈ entries) :
    Matches entries name ↔ Matches [entry] name ∨ ∃ other ∈ entries, other ≠ entry ∧ Matches [other] name := by
  have hsingle : ∀ other, Matches [other] name ↔ spelled other ≠ [] ∧ '.' :: spelled other <:+ lowercase name := by
    intro other
    simp [Matches]
  simp only [hsingle]
  constructor
  · rintro ⟨other, hother, hmatches⟩
    by_cases hsame : other = entry
    · exact .inl (hsame ▸ hmatches)
    · exact .inr ⟨other, hother, hsame, hmatches⟩
  · rintro (hmatches | ⟨other, hother, -, hmatches⟩)
    · exact ⟨entry, h, hmatches⟩
    · exact ⟨other, hother, hmatches⟩

/-- A dot that is taken off an extension makes no difference to the names that have it. -/
theorem dot_dropDot_suffix_iff (before extension : Text) :
    '.' :: lowercase (dropDot extension) <:+ lowercase (before ++ '.' :: extension) ↔
      ¬ (endsCased before = true ∧ beginsFinalSigma extension = true) := by
  by_cases hdot : extension.head? = some '.'
  · obtain ⟨rest, rfl⟩ := List.head?_eq_some_iff.mp hdot
    have hname : before ++ '.' :: '.' :: rest = (before ++ ['.']) ++ '.' :: rest := by simp
    have hrest : dropDot ('.' :: rest) = rest := rfl
    rw [hname, hrest, Text.dot_lowercase_suffix_iff, Text.Lowercase.endsCased_dot, Text.Lowercase.beginsFinalSigma_dot]
  · rw [dropDot_eq_self hdot]
    exact Text.dot_lowercase_suffix_iff before extension

/-- Whether an extension, as it was written, is matched by the names that consist of a given one, a dot and the
extension: it is not a dot only, and it does not begin with a sigma that becomes a final one there. -/
def TakesEffect (before extension : Text) : Prop :=
  extension ≠ ['.'] ∧ ¬ (endsCased before = true ∧ beginsFinalSigma extension = true)

instance (before extension : Text) : Decidable (TakesEffect before extension) :=
  inferInstanceAs (Decidable (_ ∧ _))

/-- An entry that was read matches a name with the extension that was written exactly if that takes effect. -/
theorem matches_spelled_iff {piece : Text} (hne : bare piece ≠ [])
    (hfree : ∀ c ∈ spelled piece, Text.isWhitespace c = false) (before : Text) :
    Matches [spelled piece] (before ++ '.' :: bare piece) ↔ TakesEffect before (bare piece) := by
  have htwice : spelled (spelled piece) = lowercase (dropDot (bare piece)) :=
    (spelled_spelled hfree).trans (dropDot_lowercase _)
  have hnil : lowercase (dropDot (bare piece)) ≠ [] ↔ bare piece ≠ ['.'] := by
    rw [Ne, Ne, ← dropDot_eq_nil_iff hne, Text.lowercase_eq_nil_iff]
  simp only [Matches, List.mem_singleton, exists_eq_left, htwice, hnil, dot_dropDot_suffix_iff]
  rfl

end Extension

namespace Settings

variable {decode? : Text → Option Document} {text value piece : Text} {doc : Document} {settings : Settings}
  {list : ExtensionList}

/-- A written entry of which anything is left is read. -/
theorem spelled_mem_entries (hgiven : list.given? doc = some value) (h : ofDocument doc = .ok settings)
    (hpiece : piece ∈ value.splitOn ',') (hne : bare piece ≠ []) :
    spelled piece ∈ list.entries settings ∧ ∀ c ∈ spelled piece, Text.isWhitespace c = false := by
  have hdescribes := describes_of_ofDocument h
  have hwritten : spelled piece ∈ ((value.splitOn ',').map spelled).filter (· ≠ []) :=
    List.mem_filter.mpr ⟨List.mem_map_of_mem hpiece, decide_eq_true (Text.lowercase_ne_nil hne)⟩
  have hmem : spelled piece ∈ list.entries settings :=
    ((hdescribes.entries_given list value hgiven).mem_iff _).mpr hwritten
  exact ⟨hmem, fun c hc => (hdescribes.entries_clean list value hgiven _ hmem c hc).2.1⟩

/-- An extension that a user writes into a list decides about the files that have it exactly if it takes effect there
or another entry of the list matches the name: they are on the whitelist, or on the blacklist unless they are on the
whitelist.  Whether it takes effect or not, it is read. -/
theorem finding_of_written_extension (hdoc : decode? text = some doc) (hgiven : list.given? doc = some value)
    (h : ofText decode? text = .ok settings) (hpiece : piece ∈ value.splitOn ',') (hne : bare piece ≠ []) :
    let extension := bare piece
    let entry := lowercase extension
    entry ∈ list.entries settings ∧ ∀ before languages lines, lines ≠ [] →
      let name := before ++ '.' :: extension
      let finding := (Policy.ofSettings settings languages).finding name lines
      let decides := Extension.TakesEffect before extension ∨
        ∃ other ∈ list.entries settings, other ≠ entry ∧ Matches [other] name
      (Matches [entry] name ↔ Extension.TakesEffect before extension) ∧
        (list = .whitelist → (finding = ⟨false, "appears in extension whitelist".toList⟩ ↔ decides)) ∧
        (list = .blacklist → finding ≠ ⟨false, "appears in extension whitelist".toList⟩ →
          (finding = ⟨true, "appears in extension blacklist".toList⟩ ↔ decides)) := by
  intro extension entry
  obtain ⟨hmem, hfree⟩ := spelled_mem_entries hgiven ((ofText_eq_ofDocument hdoc).symm.trans h) hpiece hne
  refine ⟨hmem, ?_⟩
  intro before languages lines hlines name finding decides
  have hentry : Matches [entry] name ↔ Extension.TakesEffect before extension :=
    Extension.matches_spelled_iff hne hfree before
  have hdecides : Matches (list.entries settings) name ↔ decides :=
    (Extension.matches_iff_of_mem hmem).trans (or_congr_left hentry)
  have hwhite : finding = Ground.whitelisted.finding ↔ Matches settings.whitelist name :=
    Policy.finding_eq_whitelisted_iff hlines
  have hblack : finding ≠ Ground.whitelisted.finding →
      (finding = Ground.blacklisted.finding ↔ Matches settings.blacklist name) :=
    fun hnot => Policy.finding_eq_blacklisted_iff hlines (mt hwhite.mpr hnot)
  refine ⟨hentry, ?_, ?_⟩
  · rintro rfl
    exact hwhite.trans hdecides
  · rintro rfl hnot
    exact (hblack hnot).trans hdecides

/-- Blanks, capitals and a dot in front of an extension of two parts make no difference. -/
theorem finding_of_written_capitals :
    let text := "binary_whitelist = ' .Min.JS,'\nbinary_blacklist = ''".toList
    let value := " .Min.JS,".toList
    let doc := { Document.empty with whitelist := some value, blacklist := some [] }
    let settings := { default with whitelist := ["min.js".toList], blacklist := [] }
    Document.ofText? text = some doc ∧ ExtensionList.whitelist.given? doc = some value ∧
      ofText Document.ofText? text = .ok settings ∧ " .Min.JS".toList ∈ value.splitOn ',' ∧
      bare " .Min.JS".toList ≠ [] ∧ ∀ languages lines, lines ≠ [] →
        (Policy.ofSettings settings languages).finding "Lib.Min.JS".toList lines
          = ⟨false, "appears in extension whitelist".toList⟩ := by
  intro text value doc settings
  have hdoc : Document.ofText? text = some doc := by decide +kernel
  have hgiven : ExtensionList.whitelist.given? doc = some value := rfl
  have hsettings : ofText Document.ofText? text = .ok settings := by
    rw [ofText_eq_ofDocument hdoc]
    rfl
  have hpiece : " .Min.JS".toList ∈ value.splitOn ',' := by decide
  have hne : bare " .Min.JS".toList ≠ [] := by decide
  refine ⟨hdoc, hgiven, hsettings, hpiece, hne, ?_⟩
  intro languages lines hlines
  obtain ⟨-, hnames⟩ := finding_of_written_extension hdoc hgiven hsettings hpiece hne
  exact ((hnames "Lib".toList languages lines hlines).2.1 rfl).mpr (.inl (by decide +kernel))

/-- Two entries that are accepted without an effect.  Of two dots one is left, which is taken off as well when the
policy is made; and a sigma that is lowercased alone is no final sigma, but after a letter and a dot it is one. -/
theorem dots_and_sigma_without_effect :
    let text := "binary_whitelist = '..,Σ'\nbinary_blacklist = ''".toList
    let value := "..,Σ".toList
    let settings := { default with whitelist := [".".toList, "σ".toList], blacklist := [] }
    let p := Policy.ofSettings settings []
    ofText Document.ofText? text = .ok settings ∧ "..".toList ∈ value.splitOn ',' ∧ "Σ".toList ∈ value.splitOn ',' ∧
      bare "..".toList = ".".toList ∧ bare "Σ".toList = "Σ".toList ∧
      p.finding "a..".toList ["x".toList] = ⟨false, []⟩ ∧ p.finding "a.Σ".toList ["x".toList] = ⟨false, []⟩ := by
  intro text value settings p
  have hdoc : Document.ofText? text
      = some { Document.empty with whitelist := some value, blacklist := some [] } := by
    decide +kernel
  have hsettings : ofText Document.ofText? text = .ok settings := by
    rw [ofText_eq_ofDocument hdoc]
    rfl
  exact ⟨hsettings, by decide +kernel, by decide +kernel, by decide +kernel, by decide +kernel, by decide +kernel,
    by decide +kernel⟩

end Settings

end SourceIndex
