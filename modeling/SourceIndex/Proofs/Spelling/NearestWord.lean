import Mathlib.Data.Char
import Mathlib.Data.List.Induction
import Mathlib.Data.List.Lex
import SourceIndex.Proofs.Spelling.EditScript
import SourceIndex.Spelling.Dictionary

/-!
# Corrections are nearest words

An unknown word is corrected to the recorded word that comes first by the number of edits, then by how often it was
recorded, then by code points.  No two words are level in this order, so there is only one such word, and it is found
whichever way the dictionary is gone through (`correctAmong_recorded`).
-/

namespace SourceIndex.Dictionary

/-- A recorded word within two edits of a word. -/
structure Near (words : List Text) (word : Text) (distance : Nat) (known : Text) : Prop where
  mem : known ∈ words
  distance_le : distance ≤ 2
  isDistance : EditDistance.IsDistance word known distance

/-- Whether a recorded word at some distance comes before another one as a correction. -/
def Before (words : List Text) (distance : Nat) (known : Text) (distance' : Nat) (known' : Text) : Prop :=
  distance < distance' ∨ distance = distance' ∧
    (words.count known' < words.count known ∨ words.count known' = words.count known ∧ known < known')

/-- A near word that comes before all other near words. -/
def IsNearest (words : List Text) (word known : Text) : Prop :=
  ∃ distance, Near words word distance known ∧
    ∀ distance' known', Near words word distance' known' → known' ≠ known → Before words distance known distance' known'

/-! ### The order of suggestions -/

theorem Suggestion.precedes_iff {s t : Suggestion} : s.precedes t = true ↔
    s.distance < t.distance ∨ s.distance = t.distance ∧ (t.count < s.count ∨ s.count = t.count ∧ s.word < t.word) := by
  simp [precedes]

theorem Suggestion.precedes_irrefl (s : Suggestion) : s.precedes s = false := by
  rw [← Bool.not_eq_true, precedes_iff]
  rintro (h | ⟨-, h | ⟨-, h⟩⟩)
  · omega
  · omega
  · exact lt_irrefl _ h

theorem Suggestion.precedes_trans {s t u : Suggestion} (h : s.precedes t = true) (h' : t.precedes u = true) :
    s.precedes u = true := by
  rw [precedes_iff] at h h' ⊢
  rcases h with h | ⟨hst, h | ⟨hcount, h⟩⟩
  · left
    omega
  · rcases h' with h' | ⟨htu, h' | ⟨hcount', h'⟩⟩
    · left
      omega
    · exact .inr ⟨by omega, .inl (by omega)⟩
    · exact .inr ⟨by omega, .inl (by omega)⟩
  · rcases h' with h' | ⟨htu, h' | ⟨hcount', h'⟩⟩
    · left
      omega
    · exact .inr ⟨by omega, .inl (by omega)⟩
    · exact .inr ⟨by omega, .inr ⟨by omega, lt_trans h h'⟩⟩

/-- Suggestions of different words are never level. -/
theorem Suggestion.precedes_of_not_precedes {s t : Suggestion} (h : t.precedes s = false) (hne : t.word ≠ s.word) :
    s.precedes t = true := by
  rw [← Bool.not_eq_true, precedes_iff] at h
  rw [precedes_iff]
  rcases Nat.lt_trichotomy s.distance t.distance with hlt | heq | hgt
  · exact .inl hlt
  · rcases Nat.lt_trichotomy t.count s.count with hlt' | heq' | hgt'
    · exact .inr ⟨heq, .inl hlt'⟩
    · rcases lt_trichotomy s.word t.word with hlt'' | heq'' | hgt''
      · exact .inr ⟨heq, .inr ⟨heq'.symm, hlt''⟩⟩
      · exact absurd heq''.symm hne
      · exact absurd (.inr ⟨heq.symm, .inr ⟨heq', hgt''⟩⟩) h
    · exact absurd (.inr ⟨heq.symm, .inl hgt'⟩) h
  · exact absurd (.inl hgt) h

theorem before_iff {words : List Text} {n m : Nat} {known other : Text} : Before words n known m other ↔
    (⟨n, words.count known, known⟩ : Suggestion).precedes ⟨m, words.count other, other⟩ = true := by
  rw [Suggestion.precedes_iff, Before, eq_comm (a := words.count other)]

theorem Before.asymm {words : List Text} {n m : Nat} {known other : Text} (h : Before words n known m other) :
    ¬ Before words m other n known := by
  intro h'
  have hself := Suggestion.precedes_trans (before_iff.mp h) (before_iff.mp h')
  simp [Suggestion.precedes_irrefl] at hself

theorem IsNearest.unique {words : List Text} {word known other : Text} (h : IsNearest words word known)
    (h' : IsNearest words word other) : other = known := by
  obtain ⟨n, hnear, hfirst⟩ := h
  obtain ⟨m, hnear', hfirst'⟩ := h'
  by_contra hne
  exact (hfirst m other hnear' hne).asymm (hfirst' n known hnear (Ne.symm hne))

/-! ### The best suggestion -/

/-- A suggestion of a list to which no other is preferred. -/
structure IsBest (s : Suggestion) (l : List Suggestion) : Prop where
  mem : s ∈ l
  not_precedes : ∀ t ∈ l, t.precedes s = false

/-- One more suggestion replaces the best one or not. -/
private theorem IsBest.prefer {s : Suggestion} {l : List Suggestion} (h : IsBest s l) (next : Suggestion) :
    ∃ t, prefer (some s) next = some t ∧ IsBest t (l ++ [next]) := by
  by_cases hnext : next.precedes s = true
  · refine ⟨next, by simp [Dictionary.prefer, hnext], List.mem_concat_self, ?_⟩
    intro t ht
    rcases List.mem_append.mp ht with ht | ht
    · rw [← Bool.not_eq_true]
      intro htn
      have := h.not_precedes t ht
      simp [Suggestion.precedes_trans htn hnext] at this
    · rw [List.mem_singleton.mp ht]
      exact Suggestion.precedes_irrefl next
  · refine ⟨s, by simp [Dictionary.prefer, hnext], List.mem_append_left _ h.mem, ?_⟩
    intro t ht
    rcases List.mem_append.mp ht with ht | ht
    · exact h.not_precedes t ht
    · rw [List.mem_singleton.mp ht]
      simpa using hnext

theorem best?_cases (l : List Suggestion) : l = [] ∧ best? l = none ∨ ∃ s, best? l = some s ∧ IsBest s l := by
  induction l using List.reverseRecOn with
  | nil => exact .inl ⟨rfl, rfl⟩
  | append_singleton l next ih =>
    right
    have hstep : best? (l ++ [next]) = prefer (best? l) next := by simp [best?]
    rcases ih with ⟨rfl, hnone⟩ | ⟨s, hs, hbest⟩
    · refine ⟨next, rfl, List.mem_singleton_self next, ?_⟩
      intro t ht
      rw [List.mem_singleton.mp ht]
      exact Suggestion.precedes_irrefl next
    · rw [hstep, hs]
      exact hbest.prefer next

theorem IsBest.word_eq {s t : Suggestion} {l : List Suggestion} (hs : IsBest s l) (ht : IsBest t l) :
    s.word = t.word := by
  by_contra hne
  have hfirst := Suggestion.precedes_of_not_precedes (hs.not_precedes t ht.mem) (Ne.symm hne)
  simp [ht.not_precedes s hs.mem] at hfirst

theorem best?_word_of_perm {l l' : List Suggestion} (h : l.Perm l') :
    (best? l).map Suggestion.word = (best? l').map Suggestion.word := by
  rcases best?_cases l with ⟨rfl, hnone⟩ | ⟨s, hs, hbest⟩
  · rw [List.nil_perm.mp h]
  · rcases best?_cases l' with ⟨rfl, -⟩ | ⟨t, ht, hbest'⟩
    · rw [List.perm_nil.mp h]
    · have htl : IsBest t l := ⟨h.mem_iff.mpr hbest'.mem, fun u hu => hbest'.not_precedes u (h.mem_iff.mp hu)⟩
      rw [hs, ht, Option.map_some, Option.map_some, hbest.word_eq htl]

/-- The order in which the entries are gone through changes no correction. -/
theorem correctAmong_of_perm (d : Dictionary) {entries entries' : List (Text × Nat)} (h : entries.Perm entries')
    (word : Text) : d.correctAmong entries word = d.correctAmong entries' word := by
  have hsuggestions : (suggestions entries word).Perm (suggestions entries' word) := h.filterMap _
  unfold correctAmong
  rw [best?_word_of_perm hsuggestions]

/-! ### Suggestions from recorded words -/

theorem getElem?_counts_eq_some_iff {d : Dictionary} {word : Text} {n : Nat} :
    d.counts[word]? = some n ↔ d.frequency word = n ∧ 0 < n := by
  unfold frequency
  rw [Std.ExtTreeMap.getD_eq_getD_getElem?]
  cases h : d.counts[word]? with
  | none =>
    simp only [Option.getD_none, reduceCtorEq, false_iff]
    omega
  | some m =>
    have hpos := d.count_pos h
    simp only [Option.getD_some, Option.some.injEq]
    omega

variable {words : List Text} {entries : List (Text × Nat)}

theorem frequency_recorded (word : Text) : (empty.recordAll words).frequency word = words.count word := by
  rw [frequency_recordAll, frequency_empty, Nat.zero_add]

private theorem knows_recorded (word : Text) : (empty.recordAll words).knows word = true ↔ word ∈ words := by
  rw [knows_iff, frequency_recorded, List.count_pos_iff]

private theorem mem_entries_iff (h : entries.Perm (empty.recordAll words).counts.toList) {known : Text} {n : Nat} :
    (known, n) ∈ entries ↔ known ∈ words ∧ words.count known = n := by
  rw [h.mem_iff, Std.ExtTreeMap.mem_toList_iff_getElem?_eq_some, getElem?_counts_eq_some_iff, frequency_recorded,
    ← List.count_pos_iff]
  constructor
  · rintro ⟨rfl, hpos⟩
    exact ⟨hpos, rfl⟩
  · rintro ⟨hpos, rfl⟩
    exact ⟨rfl, hpos⟩

private theorem mem_suggestions_iff (h : entries.Perm (empty.recordAll words).counts.toList) {word : Text}
    {s : Suggestion} :
    s ∈ suggestions entries word ↔ Near words word s.distance s.word ∧ words.count s.word = s.count := by
  obtain ⟨distance, count, known⟩ := s
  unfold suggestions
  simp only [List.mem_filterMap, Option.map_eq_some_iff, Suggestion.mk.injEq, Prod.exists]
  constructor
  · rintro ⟨known', count', hmem, distance', hwithin, rfl, rfl, rfl⟩
    obtain ⟨hknown, hcount⟩ := (mem_entries_iff h).mp hmem
    obtain ⟨hle, hdistance⟩ := EditDistance.within?_eq_some_iff.mp hwithin
    exact ⟨⟨hknown, hle, hdistance⟩, hcount⟩
  · rintro ⟨hnear, hcount⟩
    refine ⟨known, count, (mem_entries_iff h).mpr ⟨hnear.mem, hcount⟩, distance, ?_, rfl, rfl, rfl⟩
    exact EditDistance.within?_eq_some_iff.mpr ⟨hnear.distance_le, hnear.isDistance⟩

/-- What no suggestion is preferred to comes before every other near word. -/
private theorem IsBest.isNearest (h : entries.Perm (empty.recordAll words).counts.toList) {word : Text} {s : Suggestion}
    (hs : IsBest s (suggestions entries word)) : IsNearest words word s.word := by
  obtain ⟨hnear, hcount⟩ := (mem_suggestions_iff h).mp hs.mem
  refine ⟨s.distance, hnear, ?_⟩
  intro m other hother hne
  have hmem : (⟨m, words.count other, other⟩ : Suggestion) ∈ suggestions entries word :=
    (mem_suggestions_iff h).mpr ⟨hother, rfl⟩
  have hfirst := Suggestion.precedes_of_not_precedes (hs.not_precedes _ hmem) hne
  rw [before_iff, hcount]
  exact hfirst

private theorem correctAmong_of_known {word : Text} (hword : word = [] ∨ word ∈ words) :
    (empty.recordAll words).correctAmong entries word = word := by
  unfold correctAmong
  refine if_pos ?_
  rw [Bool.or_eq_true, knows_recorded]
  exact hword.imp_left List.isEmpty_iff.mpr

private theorem correctAmong_of_unknown {word : Text} (hne : word ≠ []) (hnew : word ∉ words) :
    (empty.recordAll words).correctAmong entries word
      = ((best? (suggestions entries word)).map Suggestion.word).getD word := by
  unfold correctAmong
  refine if_neg ?_
  rw [Bool.or_eq_true, knows_recorded, List.isEmpty_iff]
  exact not_or.mpr ⟨hne, hnew⟩

/-- The correction of a word by a dictionary of recorded words, whichever way its entries are gone through: nothing
for the empty word, a known word itself, the nearest word if there is a near one, and else the word itself. -/
theorem correctAmong_recorded (h : entries.Perm (empty.recordAll words).counts.toList) (word : Text) :
    let correction := (empty.recordAll words).correctAmong entries word
    (word = [] → correction = []) ∧
      (word ∈ words → correction = word) ∧
      (word ≠ [] → word ∉ words → (∃ n known, Near words word n known) →
        IsNearest words word correction ∧ ∀ known, IsNearest words word known → known = correction) ∧
      (word ≠ [] → word ∉ words → (¬ ∃ n known, Near words word n known) → correction = word) := by
  intro correction
  refine ⟨?_, ?_, ?_, ?_⟩
  · rintro rfl
    exact correctAmong_of_known (.inl rfl)
  · intro hmem
    exact correctAmong_of_known (.inr hmem)
  · rintro hne hnew ⟨n, known, hnear⟩
    have hmem : (⟨n, words.count known, known⟩ : Suggestion) ∈ suggestions entries word :=
      (mem_suggestions_iff h).mpr ⟨hnear, rfl⟩
    obtain ⟨s, hs, hbest⟩ : ∃ s, best? (suggestions entries word) = some s ∧ IsBest s (suggestions entries word) := by
      refine (best?_cases _).resolve_left ?_
      rintro ⟨hnil, -⟩
      simp [hnil] at hmem
    have hunknown : correction = ((best? (suggestions entries word)).map Suggestion.word).getD word :=
      correctAmong_of_unknown hne hnew
    rw [hs] at hunknown
    have hcorrection : correction = s.word := hunknown
    have hnearest := hbest.isNearest h
    rw [hcorrection]
    exact ⟨hnearest, fun known hknown => hnearest.unique hknown⟩
  · intro hne hnew hnone
    have hbest : best? (suggestions entries word) = none := by
      rcases best?_cases (suggestions entries word) with ⟨-, hnothing⟩ | ⟨s, -, hs⟩
      · exact hnothing
      · exact absurd ⟨s.distance, s.word, ((mem_suggestions_iff h).mp hs.mem).1⟩ hnone
    have hunknown : correction = ((best? (suggestions entries word)).map Suggestion.word).getD word :=
      correctAmong_of_unknown hne hnew
    rw [hbest] at hunknown
    exact hunknown

/-- Of three words one edit away, two are recorded twice, and the first of these in the order of code points wins. -/
theorem isNearest_of_level_words :
    let words := ["cut".toList, "cat".toList, "cot".toList, "cut".toList, "cot".toList]
    let known := (empty.recordAll words).counts.toList
    known.reverse.Perm known ∧ (empty.recordAll words).correctAmong known.reverse "cxt".toList = "cot".toList ∧
      IsNearest words "cxt".toList "cot".toList := by
  intro words known
  have hperm : known.reverse.Perm known := List.reverse_perm known
  have hcorrection : (empty.recordAll words).correctAmong known.reverse "cxt".toList = "cot".toList := by
    decide +kernel
  have hwithin : EditDistance.within? 2 "cxt".toList "cat".toList = some 1 := by decide
  have hnear : Near words "cxt".toList 1 "cat".toList :=
    ⟨by decide, by decide, (EditDistance.within?_eq_some_iff.mp hwithin).2⟩
  have hnearest := (correctAmong_recorded hperm "cxt".toList).2.2.1 (by decide) (by decide) ⟨1, "cat".toList, hnear⟩
  exact ⟨hperm, hcorrection, hcorrection ▸ hnearest.1⟩

end SourceIndex.Dictionary
