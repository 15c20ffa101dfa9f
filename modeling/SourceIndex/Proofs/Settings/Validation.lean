import SourceIndex.Proofs.List.FirstPlaces
import SourceIndex.Proofs.Settings.ExtensionLists
import SourceIndex.Proofs.Text.Parts

/-!
# Which documents are in order

A document of settings is rejected for a split limit of zero, and otherwise for the first entry of its lists that no
name can have, the whitelist before the blacklist (`ofDocument_eq_find?`).  Every other document is accepted, and then
its settings are what it describes (`Describes`): each list that it gives holds its entries once, in the order of their
first places, and whatever it leaves out has its default.
-/

namespace SourceIndex

open Extension (spelled)

/-- The comma stands between entries only. -/
theorem Extension.comma_notMem_spelled {value piece : Text} (h : piece ∈ value.splitOn ',') : ',' ∉ spelled piece := by
  intro hcomma
  rw [spelled, ← dropDot_trimWhitespace] at hcomma
  rcases Text.mem_lowercase_cases hcomma with ⟨hmem, -⟩ | hletter | hafter
  · have hpiece := Text.mem_of_mem_trimBy ((Extension.dropDot_suffix _).subset hmem)
    exact (Text.mem_of_mem_splitOn h hpiece).2 rfl
  · exact absurd hletter (by decide)
  · exact absurd hafter (by decide)

namespace Settings

/-- The extensions that are written in a list with commas. -/
def written (value : Text) : List Text := ((value.splitOn ',').map spelled).filter (· ≠ [])

/-- The entries that a document gives for a list, in the spelling in which extensions are compared. -/
def listed (doc : Document) (list : ExtensionList) : List Text := (list.given? doc).elim [] written

/-- The entries that a document gives, each with its list, in the order in which they are examined. -/
def examined (doc : Document) : List (ExtensionList × Text) :=
  (listed doc .whitelist).map (.whitelist, ·) ++ (listed doc .blacklist).map (.blacklist, ·)

/-- The first entry of a document that no name can have, with its list. -/
def firstInvalid? (doc : Document) : Option (ExtensionList × Text) :=
  (examined doc).find? fun (_, entry) => isInvalidExtension entry

/-- The entries that settings have in a list if the document is in order. -/
def kept (doc : Document) (list : ExtensionList) : List Text :=
  (list.given? doc).elim (list.entries default) fun value => (written value).eraseDups

/-- The settings of a document if it is in order. -/
def described (doc : Document) : Settings where
  splitLimit := doc.splitLimit.getD default.splitLimit
  minifiedLength := effectiveMinifiedLength doc.minifiedLength
  whitelist := kept doc .whitelist
  blacklist := kept doc .blacklist
  guessBinary := doc.guessBinary.getD default.guessBinary
  matchAll := doc.matchAll.getD default.matchAll

theorem readList_eq (list : ExtensionList) (doc : Document) : readList list doc =
    match (listed doc list).find? isInvalidExtension with
    | some entry => .error (.invalidExtension list entry)
    | none => .ok (kept doc list) := by
  unfold readList listed kept
  cases list.given? doc with
  | none => rfl
  | some value =>
    show parseExtensions list value = _
    rw [parseExtensions, Extension.normalizeAll_eq]
    rfl

theorem firstInvalid?_eq (doc : Document) : firstInvalid? doc =
    (((listed doc .whitelist).find? isInvalidExtension).map (ExtensionList.whitelist, ·)).or
      (((listed doc .blacklist).find? isInvalidExtension).map (ExtensionList.blacklist, ·)) := by
  rw [firstInvalid?, examined, List.find?_append, List.find?_map, List.find?_map]
  rfl

/-- Only a limit that is given can be zero. -/
theorem splitLimit_eq_zero_iff (doc : Document) :
    doc.splitLimit.getD default.splitLimit = 0 ↔ doc.splitLimit = some 0 := by
  cases doc.splitLimit with
  | none => exact iff_of_false (by decide) (by simp)
  | some limit => simp

/-- What becomes of a document is decided by its limit and the first invalid entry of its lists. -/
theorem ofDocument_eq_find? (doc : Document) : ofDocument doc =
    if doc.splitLimit = some 0 then .error .zeroSplitLimit
    else
      match firstInvalid? doc with
      | some (list, entry) => .error (.invalidExtension list entry)
      | none => .ok (described doc) := by
  rw [ofDocument_eq, readList_eq, readList_eq, firstInvalid?_eq]
  refine if_congr (splitLimit_eq_zero_iff doc) rfl ?_
  cases (listed doc .whitelist).find? isInvalidExtension with
  | some entry => rfl
  | none =>
    cases (listed doc .blacklist).find? isInvalidExtension with
    | some entry => rfl
    | none => rfl

theorem mem_listed_iff {doc : Document} {list : ExtensionList} {entry : Text} : entry ∈ listed doc list ↔
    ∃ value, list.given? doc = some value ∧ ∃ piece ∈ value.splitOn ',', spelled piece = entry ∧ entry ≠ [] := by
  unfold listed
  cases list.given? doc with
  | none => simp
  | some value =>
    show entry ∈ written value ↔ _
    simp only [written, List.mem_filter, List.mem_map, decide_eq_true_eq, Option.some.injEq, exists_eq_left',
      ← and_assoc, exists_and_right]

theorem mem_examined_iff {doc : Document} {list : ExtensionList} {entry : Text} :
    (list, entry) ∈ examined doc ↔ entry ∈ listed doc list := by
  cases list with
  | whitelist => simp [examined]
  | blacklist => simp [examined]

theorem firstInvalid?_eq_none_iff (doc : Document) : firstInvalid? doc = none ↔
    ∀ list, ∀ entry ∈ listed doc list, isInvalidExtension entry = false := by
  simp only [firstInvalid?, List.find?_eq_none, Prod.forall, mem_examined_iff, Bool.not_eq_true]

theorem exists_invalid_iff (doc : Document) :
    (∃ list entry, firstInvalid? doc = some (list, entry)) ↔
      ∃ list value, ExtensionList.given? list doc = some value ∧
        ∃ piece ∈ value.splitOn ',', spelled piece ≠ [] ∧
          ∃ c ∈ spelled piece, Text.isWhitespace c = true ∨ c = '/' ∨ c = '\\' := by
  have hinvalid_iff : ∀ entry, isInvalidExtension entry = true ↔
      ∃ c ∈ entry, Text.isWhitespace c = true ∨ c = '/' ∨ c = '\\' := by
    intro entry
    simp [isInvalidExtension, or_assoc]
  simp only [← hinvalid_iff]
  constructor
  · rintro ⟨list, entry, hfind⟩
    obtain ⟨value, hvalue, piece, hpiece, rfl, hne⟩ :=
      mem_listed_iff.mp (mem_examined_iff.mp (List.mem_of_find?_eq_some hfind))
    have hinvalid := List.find?_some hfind
    exact ⟨list, value, hvalue, piece, hpiece, hne, hinvalid⟩
  · rintro ⟨list, value, hvalue, piece, hpiece, hne, hinvalid⟩
    have hmem : (list, spelled piece) ∈ examined doc :=
      mem_examined_iff.mpr (mem_listed_iff.mpr ⟨value, hvalue, piece, hpiece, rfl, hne⟩)
    have hsome : (firstInvalid? doc).isSome = true := List.find?_isSome.mpr ⟨_, hmem, hinvalid⟩
    obtain ⟨⟨first, entry⟩, hfirst⟩ := Option.isSome_iff_exists.mp hsome
    exact ⟨first, entry, hfirst⟩

/-- Whether the settings are what a document describes: what it gives, and the default of what it leaves out. -/
structure Describes (doc : Document) (settings : Settings) : Prop where
  splitLimit_eq : settings.splitLimit = doc.splitLimit.getD default.splitLimit
  splitLimit_pos : 1 ≤ settings.splitLimit
  minifiedLength_given : ∀ n, doc.minifiedLength = some n → (settings.minifiedLength : Int) = if 0 < n then n else 255
  minifiedLength_absent : doc.minifiedLength = none → settings.minifiedLength = default.minifiedLength
  minifiedLength_pos : 1 ≤ settings.minifiedLength
  entries_given : ∀ list value, ExtensionList.given? list doc = some value →
    ListsOnce (list.entries settings) (((value.splitOn ',').map spelled).filter (· ≠ []))
  entries_absent : ∀ list, ExtensionList.given? list doc = none → list.entries settings = list.entries default
  entries_clean : ∀ list value, ExtensionList.given? list doc = some value → ∀ entry ∈ list.entries settings,
    ∀ c ∈ entry, c ≠ ',' ∧ Text.isWhitespace c = false ∧ c ≠ '/' ∧ c ≠ '\\'
  guessBinary_eq : settings.guessBinary = doc.guessBinary.getD default.guessBinary
  matchAll_eq : settings.matchAll = doc.matchAll.getD default.matchAll

private theorem effectiveMinifiedLength_some (n : Int) :
    (effectiveMinifiedLength (some n) : Int) = if 0 < n then n else 255 := by
  unfold effectiveMinifiedLength
  by_cases hn : 0 < n
  · simp only [if_pos hn]
    exact Int.toNat_of_nonneg (by omega)
  · simp only [if_neg hn]
    rfl

private theorem effectiveMinifiedLength_pos (given : Option Int) : 1 ≤ effectiveMinifiedLength given := by
  cases given with
  | none => decide
  | some n =>
    have hlength := effectiveMinifiedLength_some n
    split at hlength <;> omega

variable {doc : Document} {settings : Settings}

theorem ofDocument_eq_zeroSplitLimit_iff : ofDocument doc = .error .zeroSplitLimit ↔ doc.splitLimit = some 0 := by
  rw [ofDocument_eq_find?]
  by_cases hlimit : doc.splitLimit = some 0
  · simp [hlimit]
  · rw [if_neg hlimit]
    split <;> simp [hlimit]

theorem ofDocument_eq_invalidExtension_iff {list : ExtensionList} {entry : Text} :
    ofDocument doc = .error (.invalidExtension list entry) ↔
      doc.splitLimit ≠ some 0 ∧ firstInvalid? doc = some (list, entry) := by
  rw [ofDocument_eq_find?]
  by_cases hlimit : doc.splitLimit = some 0
  · simp [hlimit]
  · rw [if_neg hlimit]
    split
    · next hfind => simp [hfind, hlimit, Prod.ext_iff]
    · next hfind => simp [hfind]

theorem ofDocument_eq_ok_iff : ofDocument doc = .ok settings ↔ doc.splitLimit ≠ some 0 ∧
    (∀ list, ∀ entry ∈ listed doc list, isInvalidExtension entry = false) ∧ described doc = settings := by
  rw [ofDocument_eq_find?, ← firstInvalid?_eq_none_iff]
  by_cases hlimit : doc.splitLimit = some 0
  · simp [hlimit]
  · rw [if_neg hlimit]
    split
    · next hfind => simp [hfind]
    · next hfind => simp [hfind, hlimit]

theorem describes_of_ofDocument (h : ofDocument doc = .ok settings) : Describes doc settings := by
  obtain ⟨hlimit, hvalid, rfl⟩ := ofDocument_eq_ok_iff.mp h
  have hentries : ∀ list, list.entries (described doc) = kept doc list := by
    intro list
    cases list <;> rfl
  have hgiven : ∀ list value, ExtensionList.given? list doc = some value →
      listed doc list = written value ∧ list.entries (described doc) = (written value).eraseDups := by
    intro list value hvalue
    rw [hentries, listed, kept, hvalue]
    exact ⟨rfl, rfl⟩
  constructor
  case splitLimit_eq => rfl
  case splitLimit_pos =>
    exact Nat.one_le_iff_ne_zero.mpr (mt (splitLimit_eq_zero_iff doc).mp hlimit)
  case minifiedLength_given =>
    intro n hn
    show (effectiveMinifiedLength doc.minifiedLength : Int) = if 0 < n then n else 255
    rw [hn]
    exact effectiveMinifiedLength_some n
  case minifiedLength_absent =>
    intro hnone
    show effectiveMinifiedLength doc.minifiedLength = defaultMinifiedLength
    rw [hnone]
    rfl
  case minifiedLength_pos =>
    exact effectiveMinifiedLength_pos _
  case entries_given =>
    intro list value hvalue
    rw [(hgiven list value hvalue).2]
    exact listsOnce_eraseDups _
  case entries_absent =>
    intro list hnone
    rw [hentries, kept, hnone, Option.elim_none]
  case entries_clean =>
    intro list value hvalue entry hentry c hc
    obtain ⟨hlisted, hread⟩ := hgiven list value hvalue
    rw [hread, List.mem_eraseDups] at hentry
    have hcomma : c ≠ ',' := by
      rintro rfl
      obtain ⟨piece, hpiece, rfl⟩ := List.mem_map.mp (List.mem_filter.mp hentry).1
      exact Extension.comma_notMem_spelled hpiece hc
    exact ⟨hcomma, isInvalidExtension_eq_false_iff.mp (hvalid list entry (hlisted ▸ hentry)) c hc⟩
  case guessBinary_eq => rfl
  case matchAll_eq => rfl

/-- A text that is decoded into a document with a limit of zero is rejected for that; any other one that gives an entry
which no name can have is rejected for the first such entry, in the whitelist if it has one and in the blacklist
otherwise; every other text is accepted, with the settings that its document describes. -/
theorem ofText_exact {decode? : Text → Option Document} {text : Text} {doc : Document}
    (hdoc : decode? text = some doc) :
    let pieces : ExtensionList → List Text := fun list =>
      (list.given? doc).elim [] fun value => ((value.splitOn ',').map spelled).filter (· ≠ [])
    let rejected : Text → Bool := fun entry => entry.any fun c => Text.isWhitespace c || c == '/' || c == '\\'
    let first? := ((pieces .whitelist).map (ExtensionList.whitelist, ·) ++
      (pieces .blacklist).map (ExtensionList.blacklist, ·)).find? fun (_, entry) => rejected entry
    (ofText decode? text = .error .zeroSplitLimit ↔ doc.splitLimit = some 0) ∧
      ((∃ list entry, ofText decode? text = .error (.invalidExtension list entry)) ↔
        doc.splitLimit ≠ some 0 ∧ ∃ list value, ExtensionList.given? list doc = some value ∧
          ∃ piece ∈ value.splitOn ',', spelled piece ≠ [] ∧
            ∃ c ∈ spelled piece, Text.isWhitespace c = true ∨ c = '/' ∨ c = '\\') ∧
      (∀ list entry, ofText decode? text = .error (.invalidExtension list entry) ↔
        doc.splitLimit ≠ some 0 ∧ first? = some (list, entry)) ∧
      ((∃ settings, ofText decode? text = .ok settings) ↔
        doc.splitLimit ≠ some 0 ∧ ∀ list, ∀ entry ∈ pieces list, rejected entry = false) ∧
      ∀ settings, ofText decode? text = .ok settings → Describes doc settings := by
  rw [ofText_eq_ofDocument hdoc]
  refine ⟨ofDocument_eq_zeroSplitLimit_iff, ?_, fun list entry => ofDocument_eq_invalidExtension_iff, ?_,
    fun settings => describes_of_ofDocument⟩
  · simp only [ofDocument_eq_invalidExtension_iff, exists_and_left]
    exact and_congr_right fun _ => exists_invalid_iff doc
  · constructor
    · rintro ⟨settings, hsettings⟩
      obtain ⟨hlimit, hvalid, -⟩ := ofDocument_eq_ok_iff.mp hsettings
      exact ⟨hlimit, hvalid⟩
    · rintro ⟨hlimit, hvalid⟩
      exact ⟨described doc, ofDocument_eq_ok_iff.mpr ⟨hlimit, hvalid, rfl⟩⟩

/-- With errors in both lists the one of the whitelist is reported, the first if there are several.  Of entries that are
the same but for blanks, capitals and a dot the first one is kept. -/
theorem ofText_of_two_texts :
    let faulty := "binary_blacklist = 'x/y'\nbinary_whitelist = 'Ok, .A b,c\\d'".toList
    let repeating := "minified_length = -3\nbinary_whitelist = ' .JS,js,,.Min.Css,JS '".toList
    let faultyDoc := { Document.empty with
      whitelist := some "Ok, .A b,c\\d".toList, blacklist := some "x/y".toList }
    let repeatingDoc := { Document.empty with
      minifiedLength := some (-3), whitelist := some " .JS,js,,.Min.Css,JS ".toList }
    let settings := { default with whitelist := ["js".toList, "min.css".toList] }
    Document.ofText? faulty = some faultyDoc ∧
      ofText Document.ofText? faulty = .error (.invalidExtension .whitelist "a b".toList) ∧
      Document.ofText? repeating = some repeatingDoc ∧
      ofText Document.ofText? repeating = .ok settings ∧ settings.minifiedLength = 255 ∧
      ListsOnce settings.whitelist ["js".toList, "js".toList, "min.css".toList, "js".toList] := by
  intro faulty repeating faultyDoc repeatingDoc settings
  have hfaulty : Document.ofText? faulty = some faultyDoc := by decide +kernel
  have hrepeating : Document.ofText? repeating = some repeatingDoc := by decide +kernel
  have hsettings : ofText Document.ofText? repeating = .ok settings := by
    rw [ofText_eq_ofDocument hrepeating]
    rfl
  have hdescribes : Describes repeatingDoc settings := (ofText_exact hrepeating).2.2.2.2 settings hsettings
  refine ⟨hfaulty, ?_, hrepeating, hsettings, ?_, ?_⟩
  · exact ((ofText_exact hfaulty).2.2.1 .whitelist "a b".toList).mpr (by decide +kernel)
  · exact Int.ofNat_inj.mp (hdescribes.minifiedLength_given (-3) rfl)
  · exact hdescribes.entries_given .whitelist _ rfl

end Settings

end SourceIndex
