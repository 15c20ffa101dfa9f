import Mathlib.Data.Finset.Max
import SourceIndex.Proofs.File.ExtensionRules
import SourceIndex.Proofs.Text.LowercaseLetters
import SourceIndex.Settings.Reader

/-!
# Extension lists that are read

Reading a list brings its entries into the spelling in which extensions are compared, and making a policy does so
again.  An entry that was read keeps its case and its ends the second time, but it loses one more dot if it still
begins with one (`Extension.spelled_spelled`).  So the policy of a list that is read and the policy of the same
entries as they were written agree unless an entry begins with two dots, and then they agree about exactly the names
that both lists match or neither does (`Policy.sameAnswers_put_iff`).
-/

namespace SourceIndex

open Extension (Matches dropDot normalizeAll)

namespace ExtensionList

/-- The entries of a list in settings. -/
def entries (list : ExtensionList) (settings : Settings) : List Text :=
  match list with
  | .whitelist => settings.whitelist
  | .blacklist => settings.blacklist

/-- The settings with other entries in a list. -/
def put (list : ExtensionList) (entries : List Text) (settings : Settings) : Settings :=
  match list with
  | .whitelist => { settings with whitelist := entries }
  | .blacklist => { settings with blacklist := entries }

/-- The text that a document gives for a list. -/
def given? (list : ExtensionList) (doc : Settings.Document) : Option Text :=
  match list with
  | .whitelist => doc.whitelist
  | .blacklist => doc.blacklist

theorem entries_whitelist (settings : Settings) : ExtensionList.whitelist.entries settings = settings.whitelist := rfl

theorem entries_blacklist (settings : Settings) : ExtensionList.blacklist.entries settings = settings.blacklist := rfl

end ExtensionList

/-! ### What is read -/

namespace Settings

theorem isInvalidExtension_eq_false_iff {entry : Text} :
    isInvalidExtension entry = false ↔ ∀ c ∈ entry, Text.isWhitespace c = false ∧ c ≠ '/' ∧ c ≠ '\\' := by
  simp [isInvalidExtension, and_assoc]

theorem parseExtensions_eq_ok_iff {list : ExtensionList} {value : Text} {extensions : List Text} :
    parseExtensions list value = .ok extensions ↔
      (∀ entry ∈ normalizeAll (value.splitOn ','), isInvalidExtension entry = false) ∧
        (normalizeAll (value.splitOn ',')).eraseDups = extensions := by
  simp only [parseExtensions]
  cases hfind : (normalizeAll (value.splitOn ',')).find? isInvalidExtension with
  | some entry =>
    have hinvalid := List.find?_some hfind
    have hmem := List.mem_of_find?_eq_some hfind
    simp only [reduceCtorEq, false_iff, not_and]
    intro hvalid
    simp [hvalid entry hmem] at hinvalid
  | none =>
    have hvalid : ∀ entry ∈ normalizeAll (value.splitOn ','), isInvalidExtension entry = false := by
      simpa using hfind
    simp only [Except.ok.injEq]
    exact (and_iff_right hvalid).symm

/-- The entries which a document leaves in a list. -/
def readList (list : ExtensionList) (doc : Document) : Except SettingsError (List Text) :=
  match list.given? doc with
  | some value => parseExtensions list value
  | none => .ok (list.entries default)

/-- The lists of a document are read one after the other, once its limit is known to be good. -/
theorem ofDocument_eq (doc : Document) : ofDocument doc =
    if doc.splitLimit.getD default.splitLimit = 0 then .error .zeroSplitLimit
    else (readList .whitelist doc).bind fun whitelist => (readList .blacklist doc).bind fun blacklist => .ok {
      splitLimit := doc.splitLimit.getD default.splitLimit
      minifiedLength := effectiveMinifiedLength doc.minifiedLength
      whitelist
      blacklist
      guessBinary := doc.guessBinary.getD default.guessBinary
      matchAll := doc.matchAll.getD default.matchAll } := by
  rw [readList, readList, ofDocument, ExtensionList.given?, ExtensionList.given?, ExtensionList.entries_whitelist,
    ExtensionList.entries_blacklist]
  by_cases hlimit : doc.splitLimit.getD default.splitLimit = 0
  · rw [if_pos hlimit, if_pos hlimit]
    rfl
  · rw [if_neg hlimit, if_neg hlimit]
    -- a case split on the fields would have the default lists evaluated
    rcases Option.eq_none_or_eq_some doc.whitelist with hwhite | ⟨white, hwhite⟩ <;>
    rcases Option.eq_none_or_eq_some doc.blacklist with hblack | ⟨black, hblack⟩ <;>
    · rw [hwhite, hblack]
      rfl

theorem readList_of_ofDocument {doc : Document} {settings : Settings} (h : ofDocument doc = .ok settings)
    (list : ExtensionList) : readList list doc = .ok (list.entries settings) := by
  rw [ofDocument_eq] at h
  split at h
  · simp at h
  · cases hwhite : readList .whitelist doc with
    | error e => simp [hwhite, Except.bind] at h
    | ok whitelist =>
      cases hblack : readList .blacklist doc with
      | error e => simp [hwhite, hblack, Except.bind] at h
      | ok blacklist =>
        simp only [hwhite, hblack, Except.bind, Except.ok.injEq] at h
        rw [← h]
        cases list with
        | whitelist => exact hwhite
        | blacklist => exact hblack

end Settings

/-! ### Entries that are normalized twice -/

namespace Extension

theorem dropDot_suffix (t : Text) : dropDot t <:+ t := by
  unfold dropDot
  split
  · exact List.suffix_cons _ _
  · exact List.suffix_rfl

theorem dropDot_eq_self {t : Text} (h : t.head? ≠ some '.') : dropDot t = t := by
  unfold dropDot
  split
  · simp at h
  · rfl

/-- The second time an entry without white space changes only if it still begins with a dot. -/
theorem spelled_spelled {entry : Text} (h : ∀ c ∈ spelled entry, Text.isWhitespace c = false) :
    spelled (spelled entry) = dropDot (spelled entry) := by
  have htrim : Text.trimWhitespace (spelled entry) = spelled entry :=
    Text.trimBy_eq_self (fun c hc => h c (List.mem_of_head? hc)) (fun c hc => h c (List.mem_of_getLast? hc))
  have hsmall : ∀ c ∈ dropDot (spelled entry), Text.Lowercase.IsSmall c :=
    fun c hc => Text.isSmall_of_mem_lowercase ((dropDot_suffix _).subset hc)
  rw [spelled, ← dropDot_trimWhitespace, htrim, Text.lowercase_eq_self hsmall]

theorem mem_normalizeAll_normalizeAll_iff {entries : List Text}
    (h : ∀ entry ∈ normalizeAll entries, ∀ c ∈ entry, Text.isWhitespace c = false) {extension : Text} :
    extension ∈ normalizeAll (normalizeAll entries)
      ↔ extension ≠ [] ∧ ∃ entry ∈ normalizeAll entries, dropDot entry = extension := by
  have hsecond : ∀ entry ∈ normalizeAll entries, spelled entry = dropDot entry := by
    intro entry hentry
    have hfree := h entry hentry
    obtain ⟨⟨written, -, rfl⟩, -⟩ := mem_normalizeAll_iff.mp hentry
    exact spelled_spelled hfree
  rw [mem_normalizeAll_iff, and_comm]
  refine and_congr_right fun _ => exists_congr fun entry => and_congr_right fun hentry => ?_
  rw [hsecond entry hentry]

theorem mem_normalizeAll_congr {entries entries' : List Text} (h : ∀ entry, entry ∈ entries' ↔ entry ∈ entries)
    (extension : Text) : extension ∈ normalizeAll entries' ↔ extension ∈ normalizeAll entries := by
  simp only [mem_normalizeAll_iff, h]

/-- If the entries that still begin with a dot lose it, the list stays the same only if there are none: the longest of
them has nothing it could come from. -/
theorem dropDot_fixes_iff {extensions : List Text} (hne : ∀ extension ∈ extensions, extension ≠ []) :
    (∀ extension, (extension ≠ [] ∧ ∃ entry ∈ extensions, dropDot entry = extension) ↔ extension ∈ extensions)
      ↔ ∀ extension ∈ extensions, extension.head? ≠ some '.' := by
  constructor
  · intro h extension hextension hdot
    obtain ⟨longest, hlongest, hmax⟩ := (extensions.toFinset.filter fun e => e.head? = some '.').exists_max_image
      List.length ⟨extension, by simp [hextension, hdot]⟩
    simp only [Finset.mem_filter, List.mem_toFinset] at hlongest hmax
    obtain ⟨-, entry, hentry, hdrop⟩ := (h longest).mpr hlongest.1
    by_cases hentrydot : entry.head? = some '.'
    · have hle := hmax entry ⟨hentry, hentrydot⟩
      obtain ⟨rest, rfl⟩ := List.head?_eq_some_iff.mp hentrydot
      have hrest : rest = longest := hdrop
      rw [hrest, List.length_cons] at hle
      omega
    · rw [dropDot_eq_self hentrydot] at hdrop
      exact hentrydot (hdrop ▸ hlongest.2)
  · intro h extension
    constructor
    · rintro ⟨-, entry, hentry, rfl⟩
      rwa [dropDot_eq_self (h entry hentry)]
    · intro hextension
      exact ⟨hne extension hextension, extension, hextension, dropDot_eq_self (h extension hextension)⟩

end Extension

/-! ### Policies that answer alike -/

namespace Policy

/-- The policies of two settings answer alike about every file with a given name. -/
def SameAnswers (settings settings' : Settings) (languages : List Language) (name : Text) : Prop :=
  ∀ lines, (ofSettings settings' languages).finding name lines = (ofSettings settings languages).finding name lines ∧
    (ofSettings settings' languages).isMinified name lines = (ofSettings settings languages).isMinified name lines ∧
    ∀ limit, (ofSettings settings' languages).isMinifiedAt limit name lines
      = (ofSettings settings languages).isMinifiedAt limit name lines

variable {settings settings' : Settings} {languages : List Language} {name : Text}

private theorem isMinifiedAt_congr (hwhite : Matches settings'.whitelist name ↔ Matches settings.whitelist name)
    (limit : Nat) (lines : List Text) : (ofSettings settings' languages).isMinifiedAt limit name lines
      = (ofSettings settings languages).isMinifiedAt limit name lines := by
  have hlisted : Extension.hasAny (normalizeAll settings'.whitelist) (Text.lowercase name)
      = Extension.hasAny (normalizeAll settings.whitelist) (Text.lowercase name) := by
    rw [Bool.eq_iff_iff, Extension.hasAny_normalizeAll_iff, Extension.hasAny_normalizeAll_iff, hwhite]
  unfold isMinifiedAt ofSettings
  rw [hlisted]

/-- Policies that differ in their lists only answer alike about a name exactly if both whitelists match it or neither
does, and the same holds of the blacklists unless the name is on the whitelist. -/
theorem sameAnswers_iff (hguess : settings'.guessBinary = settings.guessBinary)
    (hlength : settings'.minifiedLength = settings.minifiedLength) : SameAnswers settings settings' languages name ↔
      (Matches settings'.whitelist name ↔ Matches settings.whitelist name) ∧
        (Matches settings.whitelist name ∨ (Matches settings'.blacklist name ↔ Matches settings.blacklist name)) := by
  constructor
  · intro h
    -- any file that is not empty tells the lists apart
    have hlines : [([] : Text)] ≠ [] := List.cons_ne_nil _ _
    have hfinding := (h [[]]).1
    have hwhite : Matches settings'.whitelist name ↔ Matches settings.whitelist name := by
      rw [← finding_eq_whitelisted_iff hlines, ← finding_eq_whitelisted_iff hlines, hfinding]
    refine ⟨hwhite, ?_⟩
    by_cases hlisted : Matches settings.whitelist name
    · exact .inl hlisted
    · right
      rw [← finding_eq_blacklisted_iff hlines (mt hwhite.mp hlisted), ← finding_eq_blacklisted_iff hlines hlisted,
        hfinding]
  · rintro ⟨hwhite, hblack⟩ lines
    refine ⟨?_, ?_, fun limit => isMinifiedAt_congr hwhite limit lines⟩
    · unfold finding
      by_cases hlines : lines = []
      · rw [hlines]
        rfl
      · rw [ground_ofSettings settings languages name hlines, ground_ofSettings settings' languages name hlines, hguess]
        by_cases hlisted : Matches settings.whitelist name
        · rw [if_pos hlisted, if_pos (hwhite.mpr hlisted)]
        · rw [if_neg hlisted, if_neg (mt hwhite.mp hlisted)]
          simp only [hblack.resolve_left hlisted]
    · show (ofSettings settings' languages).isMinifiedAt settings'.minifiedLength name lines
        = (ofSettings settings languages).isMinifiedAt settings.minifiedLength name lines
      rw [hlength]
      exact isMinifiedAt_congr hwhite _ lines

theorem sameAnswers_put_iff {list : ExtensionList} {entries : List Text} :
    SameAnswers settings (list.put entries settings) languages name ↔
      list = .blacklist ∧ Matches settings.whitelist name ∨
        (Matches (list.entries settings) name ↔ Matches entries name) := by
  cases list with
  | whitelist =>
    refine (sameAnswers_iff (by rfl) (by rfl)).trans ?_
    simp only [ExtensionList.put, ExtensionList.entries_whitelist, iff_self, or_true, and_true, reduceCtorEq, false_and,
      false_or]
    exact iff_comm
  | blacklist =>
    refine (sameAnswers_iff (by rfl) (by rfl)).trans ?_
    simp only [ExtensionList.put, ExtensionList.entries_blacklist, iff_self, true_and]
    exact or_congr_right iff_comm

end Policy

/-! ### Lists that are read and lists as they were written -/

namespace Settings

open Policy (SameAnswers)

/-- A text has the settings of the document that it is decoded into, whatever decodes it. -/
theorem ofText_eq_ofDocument {decode? : Text → Option Document} {text : Text} {doc : Document}
    (hdoc : decode? text = some doc) : ofText decode? text = ofDocument doc := by
  unfold ofText
  rw [hdoc]

/-- A list of extensions that is read from a text, beside its entries as they stand between the commas.  A policy
normalizes what was read once more, which takes a dot away where an entry still begins with one; so it ends up with the
same extensions as from the written entries exactly if none does.  About each name the two policies give the same
answers exactly if both lists match the name or neither does, or if it is the blacklist and the whitelist matches the
name; and they do so about all names if no entry still begins with a dot. -/
theorem answers_of_read_list {decode? : Text → Option Document} {text value : Text} {doc : Document}
    {settings : Settings} {list : ExtensionList} (hdoc : decode? text = some doc)
    (hgiven : list.given? doc = some value) (h : ofText decode? text = .ok settings) :
    let written := value.splitOn ','
    let read := list.entries settings
    let once := (written.map Extension.spelled).filter (· ≠ [])
    let twice := (read.map Extension.spelled).filter (· ≠ [])
    (∀ extension, extension ∈ twice ↔
        extension ≠ [] ∧ ∃ entry ∈ once, (if entry.head? = some '.' then entry.tail else entry) = extension) ∧
      ((∀ extension, extension ∈ twice ↔ extension ∈ once) ↔ ∀ entry ∈ once, entry.head? ≠ some '.') ∧
      (∀ languages name, SameAnswers settings (list.put written settings) languages name ↔
        list = .blacklist ∧ Matches settings.whitelist name ∨ (Matches read name ↔ Matches written name)) ∧
      ((∀ entry ∈ once, entry.head? ≠ some '.') →
        ∀ languages name, SameAnswers settings (list.put written settings) languages name) := by
  intro written read
  simp only [← Extension.normalizeAll_eq, ← Extension.dropDot_eq]
  have hparse : parseExtensions list value = .ok read := by
    have hread := readList_of_ofDocument ((ofText_eq_ofDocument hdoc).symm.trans h) list
    rwa [readList, hgiven] at hread
  obtain ⟨hvalid, hread⟩ := parseExtensions_eq_ok_iff.mp hparse
  have hfree : ∀ entry ∈ normalizeAll written, ∀ c ∈ entry, Text.isWhitespace c = false := by
    intro entry hentry c hc
    have hentry := hvalid entry hentry
    simp only [isInvalidExtension, List.any_eq_false, Bool.or_eq_true, not_or, Bool.not_eq_true] at hentry
    exact (hentry c hc).1.1
  have htwice : ∀ extension, extension ∈ normalizeAll read ↔
      extension ≠ [] ∧ ∃ entry ∈ normalizeAll written, dropDot entry = extension := by
    intro extension
    rw [← Extension.mem_normalizeAll_normalizeAll_iff hfree]
    refine Extension.mem_normalizeAll_congr ?_ extension
    intro entry
    rw [← hread, List.mem_eraseDups]
  have hne : ∀ entry ∈ normalizeAll written, entry ≠ [] :=
    fun entry hentry => (Extension.mem_normalizeAll_iff.mp hentry).2
  have hsame : (∀ extension, extension ∈ normalizeAll read ↔ extension ∈ normalizeAll written) ↔
      ∀ entry ∈ normalizeAll written, entry.head? ≠ some '.' := by
    rw [← Extension.dropDot_fixes_iff hne]
    simp only [htwice]
  refine ⟨htwice, hsame, fun languages name => Policy.sameAnswers_put_iff, ?_⟩
  intro hdots languages name
  rw [Policy.sameAnswers_put_iff]
  right
  rw [← Extension.hasAny_normalizeAll_iff, ← Extension.hasAny_normalizeAll_iff, Extension.hasAny_iff,
    Extension.hasAny_iff]
  exact exists_congr fun extension => and_congr_left fun _ => hsame.mpr hdots extension

/-- Blanks, capitals, a dot, an empty entry and a second copy make no difference. -/
theorem sameAnswers_of_mixed_spelling :
    let text := "binary_blacklist = ' .JS, Min.Css,,js'".toList
    let value := " .JS, Min.Css,,js".toList
    let doc := { Document.empty with blacklist := some value }
    let settings := { default with blacklist := ["js".toList, "min.css".toList] }
    Document.ofText? text = some doc ∧ ExtensionList.blacklist.given? doc = some value ∧
      ofText Document.ofText? text = .ok settings ∧ ∀ languages name,
        SameAnswers settings (ExtensionList.blacklist.put (value.splitOn ',') settings) languages name := by
  intro text value doc settings
  have hdoc : Document.ofText? text = some doc := by decide +kernel
  have hgiven : ExtensionList.blacklist.given? doc = some value := rfl
  have hsettings : ofText Document.ofText? text = .ok settings := by
    rw [ofText_eq_ofDocument hdoc]
    rfl
  have hdots : ∀ entry ∈ ((value.splitOn ',').map Extension.spelled).filter (· ≠ []), entry.head? ≠ some '.' := by
    decide +kernel
  exact ⟨hdoc, hgiven, hsettings, (answers_of_read_list hdoc hgiven hsettings).2.2.2 hdots⟩

/-- An entry with two dots is read with one, and the policy takes that one away too.  So the file `a.zzz` is on the
whitelist that was read, but not on the one with the entry as it was written. -/
theorem second_dot_is_dropped :
    let text := "binary_whitelist = '..zzz'\nbinary_blacklist = ''".toList
    let settings := { default with whitelist := [".zzz".toList], blacklist := [] }
    let built := ExtensionList.whitelist.put ("..zzz".toList.splitOn ',') settings
    ofText Document.ofText? text = .ok settings ∧
      (Policy.ofSettings settings []).finding "a.zzz".toList ["x".toList]
        = ⟨false, "appears in extension whitelist".toList⟩ ∧
      (Policy.ofSettings built []).finding "a.zzz".toList ["x".toList] = ⟨false, []⟩ := by
  intro text settings built
  have hdoc : Document.ofText? text
      = some { Document.empty with whitelist := some "..zzz".toList, blacklist := some [] } := by
    decide +kernel
  have hsettings : ofText Document.ofText? text = .ok settings := by
    rw [ofText_eq_ofDocument hdoc]
    rfl
  exact ⟨hsettings, by decide +kernel, by decide +kernel⟩

end Settings

end SourceIndex
