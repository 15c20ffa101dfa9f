import Std.Data.ExtTreeMap
import SourceIndex.Spelling.EditDistance

/-!
# The spelling dictionary

A dictionary knows words and how often each was recorded.  It corrects an unknown word to the known word at the least
edit distance, at most two; among those to the one recorded most often, and among those to the first in the order of
code points.  Two dictionaries with the same frequencies are equal (`Dictionary.ext`), so nothing depends on the order
in which words were recorded.
-/

namespace SourceIndex

/-- The words recorded so far and how often each was. -/
structure Dictionary where
  counts : Std.ExtTreeMap Text Nat
  count_pos : ∀ {word : Text} {n : Nat}, counts[word]? = some n → 0 < n

namespace Dictionary

/-- The largest edit distance of a correction. -/
def maxDistance : Nat := 2

/-- The dictionary that knows no word. -/
def empty : Dictionary := ⟨∅, by simp⟩

/-- How often a word was recorded. -/
def frequency (d : Dictionary) (word : Text) : Nat := d.counts.getD word 0

/-- Whether a word was recorded. -/
def knows (d : Dictionary) (word : Text) : Bool := d.counts.contains word

/-- The number of known words. -/
def size (d : Dictionary) : Nat := d.counts.size

/-- Whether no word is known. -/
def isEmpty (d : Dictionary) : Bool := d.size == 0

/-- The dictionary after one more record of a word. -/
def record (d : Dictionary) (word : Text) : Dictionary where
  counts := d.counts.insert word (d.frequency word + 1)
  count_pos := by
    intro other n h
    rw [Std.ExtTreeMap.getElem?_insert] at h
    split at h
    · simp only [Option.some.injEq] at h; omega
    · exact d.count_pos h

/-- The dictionary after a record of each word of a list. -/
def recordAll (d : Dictionary) (words : List Text) : Dictionary := words.foldl record d

/-! ### Correction -/

/-- A known word near the one to correct. -/
structure Suggestion where
  distance : Nat
  count : Nat
  word : Text

/-- Whether a suggestion is to be preferred to another. -/
def Suggestion.precedes (s t : Suggestion) : Bool :=
  s.distance < t.distance
    || (s.distance == t.distance && (t.count < s.count || (s.count == t.count && s.word < t.word)))

/-- The better of the best suggestion so far, if there is one, and the next. -/
def prefer (best : Option Suggestion) (next : Suggestion) : Option Suggestion :=
  match best with
  | none => some next
  | some s => if next.precedes s then some next else some s

/-- The suggestion to prefer to all others, the first if there are several. -/
def best? (suggestions : List Suggestion) : Option Suggestion := suggestions.foldl prefer none

/-- The suggestions for a word from a list of words and their counts. -/
def suggestions (entries : List (Text × Nat)) (word : Text) : List Suggestion :=
  entries.filterMap fun (known, count) =>
    (EditDistance.within? maxDistance word known).map fun distance => ⟨distance, count, known⟩

/-- The correction of a word that is found if the known words and their counts are gone through in the order of
`entries`: the word itself if it is empty, known, or near no known word. -/
def correctAmong (d : Dictionary) (entries : List (Text × Nat)) (word : Text) : Text :=
  if word.isEmpty || d.knows word then word
  else ((best? (suggestions entries word)).map Suggestion.word).getD word

/-- The correction of a word. -/
def correct (d : Dictionary) (word : Text) : Text := d.correctAmong d.counts.toList word

/-! ### Frequencies -/

@[ext] theorem ext {d e : Dictionary} (h : ∀ word, d.frequency word = e.frequency word) : d = e := by
  obtain ⟨left, hleft⟩ := d
  obtain ⟨right, hright⟩ := e
  have hcounts : left = right := by
    apply Std.ExtTreeMap.ext_getElem?
    intro word
    have hw := h word
    simp only [frequency, Std.ExtTreeMap.getD_eq_getD_getElem?] at hw
    cases h1 : left[word]? with
    | none =>
      cases h2 : right[word]? with
      | none => rfl
      | some n => rw [h1, h2] at hw; have := hright h2; simp at hw; omega
    | some m =>
      cases h2 : right[word]? with
      | none => rw [h1, h2] at hw; have := hleft h1; simp at hw; omega
      | some n => rw [h1, h2] at hw; simpa using hw
  subst hcounts
  rfl

@[simp] theorem frequency_empty (word : Text) : empty.frequency word = 0 := by simp [empty, frequency]

theorem frequency_record (d : Dictionary) (word other : Text) :
    (d.record word).frequency other = d.frequency other + if other = word then 1 else 0 := by
  unfold frequency record
  simp only [Std.ExtTreeMap.getD_insert, Std.LawfulEqCmp.compare_eq_iff_eq]
  by_cases h : word = other
  · simp [h, frequency]
  · simp [h, Ne.symm h]

theorem frequency_recordAll (d : Dictionary) (words : List Text) (word : Text) :
    (d.recordAll words).frequency word = d.frequency word + words.count word := by
  induction words generalizing d with
  | nil => rfl
  | cons w words ih =>
    unfold recordAll at ih ⊢
    rw [List.foldl_cons, ih, frequency_record, List.count_cons]
    by_cases h : w = word
    · simp [h]; omega
    · simp [h, Ne.symm h]

theorem knows_iff {d : Dictionary} {word : Text} : d.knows word = true ↔ 0 < d.frequency word := by
  unfold knows frequency
  rw [Std.ExtTreeMap.getD_eq_getD_getElem?, Std.ExtTreeMap.contains_eq_isSome_getElem?]
  cases h : d.counts[word]? with
  | none => simp
  | some n => simpa using d.count_pos h

end Dictionary

end SourceIndex
