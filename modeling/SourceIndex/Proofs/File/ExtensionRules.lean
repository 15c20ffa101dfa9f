import Mathlib.Data.List.DropRight
import Mathlib.Logic.Basic
import SourceIndex.File.Policy

/-!
# Extensions decide before the content

The lists of a policy are compared with what follows each dot of a file name.  Seen through the entries as they were
written, a name has an extension of a list exactly if it ends with a dot and one of them (`Extension.Matches`), so
neither the order of the entries nor their number matters.  The content of a file is looked at only if no list has an
extension of its name (`ground_ofSettings`).
-/

namespace SourceIndex

namespace Extension

/-- An entry as it was written, without the white space at its ends and without one dot in front. -/
def bare (entry : Text) : Text :=
  let trimmed := (entry.dropWhile Text.isWhitespace).rdropWhile Text.isWhitespace
  if trimmed.head? = some '.' then trimmed.tail else trimmed

/-- The extension that a written entry stands for. -/
def spelled (entry : Text) : Text := Text.lowercase (bare entry)

/-- A file name has one of the extensions of a list: in lowercase it ends with a dot and one of the entries, trimmed,
without one leading dot and in lowercase; entries of which nothing is left do not count. -/
def Matches (entries : List Text) (name : Text) : Prop :=
  ∃ entry ∈ entries, spelled entry ≠ [] ∧ '.' :: spelled entry <:+ Text.lowercase name

theorem dropDot_eq (t : Text) : dropDot t = if t.head? = some '.' then t.tail else t := by
  unfold dropDot
  split
  · rfl
  · next hdot =>
    rw [if_neg]
    intro hhead
    obtain ⟨rest, rfl⟩ := List.head?_eq_some_iff.mp hhead
    exact hdot rest rfl

theorem dropDot_trimWhitespace (entry : Text) : dropDot (Text.trimWhitespace entry) = bare entry := dropDot_eq _

theorem normalize_eq_spelled (entry : Text) : normalize entry = spelled entry := by
  rw [normalize, dropDot_trimWhitespace, spelled]

theorem normalizeAll_eq (entries : List Text) : normalizeAll entries = (entries.map spelled).filter (· ≠ []) := by
  unfold normalizeAll
  rw [funext normalize_eq_spelled]
  congr 1
  funext entry
  cases entry <;> rfl

theorem mem_normalizeAll_iff {entries : List Text} {extension : Text} :
    extension ∈ normalizeAll entries ↔ (∃ entry ∈ entries, spelled entry = extension) ∧ extension ≠ [] := by
  simp [normalizeAll_eq]

theorem hasAny_iff {extensions : List Text} {name : Text} :
    hasAny extensions name = true ↔ ∃ extension ∈ extensions, '.' :: extension <:+ name := by
  simp only [hasAny, List.any_eq_true, List.contains_iff_mem, mem_dottedSuffixes_iff]
  exact exists_congr fun extension => and_comm

theorem hasAny_normalizeAll_iff {entries : List Text} {name : Text} :
    hasAny (normalizeAll entries) (Text.lowercase name) = true ↔ Matches entries name := by
  rw [hasAny_iff]
  constructor
  · rintro ⟨extension, hmem, hsuffix⟩
    obtain ⟨⟨entry, hentry, rfl⟩, hne⟩ := mem_normalizeAll_iff.mp hmem
    exact ⟨entry, hentry, hne, hsuffix⟩
  · rintro ⟨entry, hentry, hne, hsuffix⟩
    exact ⟨spelled entry, mem_normalizeAll_iff.mpr ⟨⟨entry, hentry, rfl⟩, hne⟩, hsuffix⟩

instance (entries : List Text) (name : Text) : Decidable (Matches entries name) :=
  decidable_of_iff _ hasAny_normalizeAll_iff

theorem matches_congr {entries entries' : List Text} (h : ∀ entry, entry ∈ entries' ↔ entry ∈ entries) (name : Text) :
    Matches entries' name ↔ Matches entries name := by
  simp only [Matches, h]

end Extension

/-- A finding with a reason comes from one ground only. -/
theorem Ground.eq_of_finding_eq {g g' : Ground} (hreason : g'.finding.reason ≠ []) (h : g.finding = g'.finding) :
    g = g' := by
  cases g <;> cases g' <;> first | rfl | exact absurd h (by decide) | exact absurd rfl hreason

namespace Policy

open Extension (Matches)

theorem groundOfUnits_cases (ascii other : Nat) :
    groundOfUnits ascii other = .enoughAscii ∨ groundOfUnits ascii other = .noAscii ∨
      groundOfUnits ascii other = .littleAscii := by
  unfold groundOfUnits
  split
  · exact .inl rfl
  · split
    · exact .inr (.inl rfl)
    · split
      · exact .inr (.inr rfl)
      · exact .inl rfl

theorem finding_eq_iff {p : Policy} {name : Text} {lines : List Text} {g : Ground} (hreason : g.finding.reason ≠ []) :
    p.finding name lines = g.finding ↔ p.ground name lines = g :=
  ⟨Ground.eq_of_finding_eq hreason, congrArg Ground.finding⟩

/-- Settings and languages with the same entries in each of the three lists, in any order and any number, and the same
choice for names that none of them has. -/
structure SameRules (settings settings' : Settings) (languages languages' : List Language) : Prop where
  whitelist : ∀ entry, entry ∈ settings'.whitelist ↔ entry ∈ settings.whitelist
  blacklist : ∀ entry, entry ∈ settings'.blacklist ↔ entry ∈ settings.blacklist
  known : ∀ entry, entry ∈ languages'.flatMap Language.extensions ↔ entry ∈ languages.flatMap Language.extensions
  guessBinary : settings'.guessBinary = settings.guessBinary

section Settings

variable (settings : Settings) (languages : List Language) (name : Text) {lines : List Text}

/-- The first list that has an extension of the name decides, and the content only if none has. -/
theorem ground_ofSettings (h : lines ≠ []) : (ofSettings settings languages).ground name lines =
    if Matches settings.whitelist name then .whitelisted
    else if Matches settings.blacklist name then .blacklisted
    else if Matches (languages.flatMap Language.extensions) name then .knownLanguage
    else if !settings.guessBinary then .unexamined
    else groundOfUnits (asciiUnits lines) (otherUnits lines) := by
  unfold ground
  rw [if_neg (by simpa using h)]
  exact if_congr Extension.hasAny_normalizeAll_iff rfl
    (if_congr Extension.hasAny_normalizeAll_iff rfl (if_congr Extension.hasAny_normalizeAll_iff rfl rfl))

variable {settings languages name}

theorem finding_eq_whitelisted_iff (h : lines ≠ []) :
    (ofSettings settings languages).finding name lines = Ground.whitelisted.finding
      ↔ Matches settings.whitelist name := by
  rw [finding_eq_iff (by decide), ground_ofSettings settings languages name h]
  grind [groundOfUnits_cases]

theorem finding_eq_blacklisted_iff (h : lines ≠ []) (hwhite : ¬ Matches settings.whitelist name) :
    (ofSettings settings languages).finding name lines = Ground.blacklisted.finding
      ↔ Matches settings.blacklist name := by
  rw [finding_eq_iff (by decide), ground_ofSettings settings languages name h, if_neg hwhite]
  grind [groundOfUnits_cases]

theorem finding_eq_knownLanguage_iff (h : lines ≠ []) (hwhite : ¬ Matches settings.whitelist name)
    (hblack : ¬ Matches settings.blacklist name) :
    (ofSettings settings languages).finding name lines = Ground.knownLanguage.finding
      ↔ Matches (languages.flatMap Language.extensions) name := by
  rw [finding_eq_iff (by decide), ground_ofSettings settings languages name h, if_neg hwhite, if_neg hblack]
  grind [groundOfUnits_cases]

/-- If a list has an extension of the name, or the content is not to be looked at, the ground does not depend on the
lines, nor on the order and the number of the entries. -/
theorem ground_congr {settings' : Settings} {languages' : List Language}
    (hsame : SameRules settings settings' languages languages')
    (hname : Matches settings.whitelist name ∨ Matches settings.blacklist name ∨
      Matches (languages.flatMap Language.extensions) name ∨ settings.guessBinary = false)
    {lines' : List Text} (h : lines ≠ []) (h' : lines' ≠ []) :
    (ofSettings settings' languages').ground name lines' = (ofSettings settings languages).ground name lines := by
  rw [ground_ofSettings settings languages name h, ground_ofSettings settings' languages' name h',
    hsame.guessBinary]
  simp only [Extension.matches_congr hsame.whitelist, Extension.matches_congr hsame.blacklist,
    Extension.matches_congr hsame.known]
  grind

theorem isMinifiedAt_of_matches (hwhite : Matches settings.whitelist name) (limit : Nat) (lines : List Text) :
    (ofSettings settings languages).isMinifiedAt limit name lines = false := by
  have hlisted := Extension.hasAny_normalizeAll_iff.mpr hwhite
  simp [isMinifiedAt, ofSettings, hlisted]

/-- The whitelist decides about a file first, then the blacklist, then the extensions of the languages, each exactly
about the names that have one of its extensions; and if none does and guessing is off, the file is not binary.  A
file on the whitelist is not minified either.  In all these cases neither the lines of the file nor the order of the
entries, nor how often one stands in its list, makes a difference. -/
theorem finding_of_extensions (settings : Settings) (languages : List Language) (name : Text) (h : lines ≠ []) :
    let p := ofSettings settings languages
    let whitelisted := Matches settings.whitelist name
    let blacklisted := Matches settings.blacklist name
    let known := Matches (languages.flatMap Language.extensions) name
    (p.finding name lines = ⟨false, "appears in extension whitelist".toList⟩ ↔ whitelisted) ∧
      (whitelisted → (∀ limit, p.isMinifiedAt limit name lines = false) ∧ p.isMinified name lines = false) ∧
      (¬ whitelisted → (p.finding name lines = ⟨true, "appears in extension blacklist".toList⟩ ↔ blacklisted)) ∧
      (¬ whitelisted → ¬ blacklisted →
        (p.finding name lines = ⟨false, "appears in internal extension whitelist".toList⟩ ↔ known)) ∧
      (¬ whitelisted → ¬ blacklisted → ¬ known → settings.guessBinary = false → p.finding name lines = ⟨false, []⟩) ∧
      (whitelisted ∨ blacklisted ∨ known ∨ settings.guessBinary = false →
        ∀ settings' languages' lines', SameRules settings settings' languages languages' → lines' ≠ [] →
          (ofSettings settings' languages').finding name lines' = p.finding name lines) := by
  intro p whitelisted blacklisted known
  refine ⟨?_, ?_, ?_, ?_, ?_, ?_⟩
  · exact finding_eq_whitelisted_iff h
  · intro hwhite
    exact ⟨fun limit => isMinifiedAt_of_matches hwhite limit lines, isMinifiedAt_of_matches hwhite _ lines⟩
  · intro hwhite
    exact finding_eq_blacklisted_iff h hwhite
  · intro hwhite hblack
    exact finding_eq_knownLanguage_iff h hwhite hblack
  · intro hwhite hblack hknown hguess
    have hground : p.ground name lines = .unexamined := by
      rw [ground_ofSettings settings languages name h, if_neg hwhite, if_neg hblack, if_neg hknown, hguess]
      rfl
    unfold finding
    rw [hground]
    rfl
  · intro hname settings' languages' lines' hsame h'
    exact congrArg Ground.finding (ground_congr hsame hname h h')

/-- Entries as a user may write them: the whitelist has an extension of two parts, whose dots and capitals do not
matter, and so beats the blacklist, which has its last part; an empty entry does not match a name that ends with a
dot.  With more copies of the entries in another order and with other lines the finding is the same. -/
theorem finding_of_written_entries :
    let settings :=
      { Settings.default with whitelist := [" .Min.JS".toList, []], blacklist := ["PNG".toList, "js".toList] }
    let settings' := { settings with whitelist := [[], " .Min.JS".toList, []] }
    let p := ofSettings settings Language.builtin
    let lines := ["\u00ff\u00ff".toList]
    lines ≠ [] ∧ p.finding "Lib.MIN.js".toList lines = ⟨false, "appears in extension whitelist".toList⟩ ∧
      p.finding "main.js".toList lines = ⟨true, "appears in extension blacklist".toList⟩ ∧
      p.finding "main.rs".toList lines = ⟨false, "appears in internal extension whitelist".toList⟩ ∧
      p.finding "blob.".toList lines ≠ ⟨false, "appears in extension whitelist".toList⟩ ∧
      (ofSettings settings' Language.builtin).finding "Lib.MIN.js".toList ["a = 1".toList]
        = p.finding "Lib.MIN.js".toList lines := by
  intro settings settings' p lines
  have h : lines ≠ [] := by decide
  have hlib := finding_of_extensions settings Language.builtin "Lib.MIN.js".toList h
  have hmain := finding_of_extensions settings Language.builtin "main.js".toList h
  have hrust := finding_of_extensions settings Language.builtin "main.rs".toList h
  have hsame : SameRules settings settings' Language.builtin Language.builtin := by
    constructor
    · intro entry
      simp [settings, settings', or_comm]
    · exact fun _ => Iff.rfl
    · exact fun _ => Iff.rfl
    · rfl
  refine ⟨h, ?_, ?_, ?_, ?_, ?_⟩
  · exact hlib.1.mpr (by decide +kernel)
  · exact (hmain.2.2.1 (by decide +kernel)).mpr (by decide +kernel)
  · have hknown : Matches (Language.builtin.flatMap Language.extensions) "main.rs".toList :=
      ⟨"rs".toList, by decide +kernel, by decide, by decide +kernel⟩
    exact (hrust.2.2.2.1 (by decide +kernel) (by decide +kernel)).mpr hknown
  · exact mt (finding_of_extensions settings Language.builtin "blob.".toList h).1.mp (by decide +kernel)
  · exact hlib.2.2.2.2.2 (.inl (by decide +kernel)) settings' Language.builtin _ hsame (by decide)

end Settings

end Policy

end SourceIndex
