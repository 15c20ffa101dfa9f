import SourceIndex.Proofs.Session.RecordedWords

/-!
# Corrections after more was learned

An unknown word is corrected to the best of the suggestions for it.  Recording words adds suggestions of these words
and raises their counts, but leaves all others alone (`mem_suggestions_recordAll`).  So a best suggestion whose word was
not recorded was the best one before (`IsBest.word_eq_of_not_recorded`), and a correction moves only towards a word that
was learned (`correct_recordAll`).
-/

namespace SourceIndex

namespace Dictionary

section Suggestions

variable {d : Dictionary} {words : List Text} {word : Text} {s t : Suggestion}

theorem mem_suggestions_iff_frequency : s ∈ suggestions d.counts.toList word ↔
    EditDistance.within? maxDistance word s.word = some s.distance ∧ d.frequency s.word = s.count ∧ 0 < s.count := by
  obtain ⟨distance, count, known⟩ := s
  unfold suggestions
  simp only [List.mem_filterMap, Option.map_eq_some_iff, Suggestion.mk.injEq, Prod.exists,
    Std.ExtTreeMap.mem_toList_iff_getElem?_eq_some, getElem?_counts_eq_some_iff]
  constructor
  · rintro ⟨known', count', ⟨hcount, hpos⟩, distance', hwithin, rfl, rfl, rfl⟩
    exact ⟨hwithin, hcount, hpos⟩
  · rintro ⟨hwithin, hcount, hpos⟩
    exact ⟨known, count, ⟨hcount, hpos⟩, distance, hwithin, rfl, rfl, rfl⟩

/-- A suggestion stays when words are recorded, with a count that does not fall. -/
theorem mem_suggestions_recordAll (hs : s ∈ suggestions d.counts.toList word) :
    { s with count := s.count + words.count s.word } ∈ suggestions (d.recordAll words).counts.toList word := by
  obtain ⟨hwithin, hcount, hpos⟩ := mem_suggestions_iff_frequency.mp hs
  refine mem_suggestions_iff_frequency.mpr ⟨hwithin, ?_, Nat.add_pos_left hpos _⟩
  rw [frequency_recordAll, hcount]

/-- A suggestion of a word that was not recorded was there before. -/
theorem mem_suggestions_of_not_recorded (hs : s ∈ suggestions (d.recordAll words).counts.toList word)
    (hnot : s.word ∉ words) : s ∈ suggestions d.counts.toList word := by
  obtain ⟨hwithin, hcount, hpos⟩ := mem_suggestions_iff_frequency.mp hs
  rw [frequency_recordAll, List.count_eq_zero_of_not_mem hnot, Nat.add_zero] at hcount
  exact mem_suggestions_iff_frequency.mpr ⟨hwithin, hcount, hpos⟩

/-- What precedes a suggestion precedes it with a smaller count, too. -/
theorem Suggestion.precedes_of_count_le {n : Nat} (h : s.precedes { t with count := n } = true) (hle : t.count ≤ n) :
    s.precedes t = true := by
  rw [precedes_iff] at h ⊢
  rcases h with hlt | ⟨heq, hlt | ⟨hcount, hlt⟩⟩
  · exact .inl hlt
  · exact .inr ⟨heq, .inl (hle.trans_lt hlt)⟩
  · rcases (hle.trans hcount.ge).eq_or_lt with hsame | hless
    · exact .inr ⟨heq, .inr ⟨hsame.symm, hlt⟩⟩
    · exact .inr ⟨heq, .inl hless⟩

/-- The best suggestion after words are recorded was the best one before, unless its word was recorded. -/
theorem IsBest.word_eq_of_not_recorded (hs : IsBest s (suggestions d.counts.toList word))
    (ht : IsBest t (suggestions (d.recordAll words).counts.toList word)) (hnot : t.word ∉ words) : t.word = s.word := by
  by_contra hne
  have hraised := ht.not_precedes _ (mem_suggestions_recordAll hs.mem)
  have hfirst := Suggestion.precedes_of_not_precedes hraised (Ne.symm hne)
  have hprecedes := Suggestion.precedes_of_count_le hfirst (Nat.le_add_right _ _)
  rw [hs.not_precedes t (mem_suggestions_of_not_recorded ht.mem hnot)] at hprecedes
  exact Bool.false_ne_true hprecedes

end Suggestions

/-! ### Corrections -/

section Correction

variable (d : Dictionary) (word : Text)

theorem correct_eq_self {d : Dictionary} {word : Text} (h : word = [] ∨ d.knows word = true) :
    d.correct word = word := by
  unfold correct correctAmong
  refine if_pos ?_
  rw [Bool.or_eq_true, List.isEmpty_iff]
  exact h

/-- A word that is neither empty nor known is corrected to the best suggestion for it, if there is any. -/
theorem correct_cases : (word = [] ∨ d.knows word = true) ∧ d.correct word = word ∨
    suggestions d.counts.toList word = [] ∧ d.correct word = word ∨
      ∃ s, IsBest s (suggestions d.counts.toList word) ∧ d.correct word = s.word := by
  by_cases h : word = [] ∨ d.knows word = true
  · exact .inl ⟨h, correct_eq_self h⟩
  · have hcorrect : d.correct word = ((best? (suggestions d.counts.toList word)).map Suggestion.word).getD word := by
      unfold correct correctAmong
      refine if_neg ?_
      rwa [Bool.or_eq_true, List.isEmpty_iff]
    rw [hcorrect]
    rcases best?_cases (suggestions d.counts.toList word) with ⟨hnil, hnone⟩ | ⟨s, hs, hbest⟩
    · exact .inr (.inl ⟨hnil, by rw [hnone]; rfl⟩)
    · exact .inr (.inr ⟨s, hbest, by rw [hs]; rfl⟩)

theorem knows_recordAll {words : List Text} :
    (d.recordAll words).knows word = true ↔ d.knows word = true ∨ word ∈ words := by
  rw [knows_iff, knows_iff, frequency_recordAll, Nat.add_pos_iff_pos_or_pos, List.count_pos_iff]

/-- After more words are recorded a correction is the one before or one of these words. -/
theorem correct_recordAll (words : List Text) :
    (d.recordAll words).correct word = d.correct word ∨ (d.recordAll words).correct word ∈ words := by
  by_cases hword : word = [] ∨ d.knows word = true
  · have hstill : word = [] ∨ (d.recordAll words).knows word = true :=
      hword.imp_right fun hknown => (knows_recordAll d word).mpr (.inl hknown)
    exact .inl ((correct_eq_self hstill).trans (correct_eq_self hword).symm)
  · rw [not_or] at hword
    rcases (d.recordAll words).correct_cases word with ⟨hnow, hself⟩ | ⟨hnil, hself⟩ | ⟨t, ht, hbest⟩
    · -- the word itself was recorded
      rw [hself]
      exact .inr (((knows_recordAll d word).mp (hnow.resolve_left hword.1)).resolve_left hword.2)
    · left
      rcases d.correct_cases word with ⟨-, hself'⟩ | ⟨-, hself'⟩ | ⟨s, hs, -⟩
      · rw [hself, hself']
      · rw [hself, hself']
      · exact absurd (mem_suggestions_recordAll hs.mem) (hnil ▸ List.not_mem_nil)
    · by_cases hnew : t.word ∈ words
      · exact .inr (hbest ▸ hnew)
      · left
        have hold := mem_suggestions_of_not_recorded ht.mem hnew
        rcases d.correct_cases word with ⟨hthen, -⟩ | ⟨hnil, -⟩ | ⟨s, hs, hbest'⟩
        · exact absurd hthen (not_or.mpr hword)
        · exact absurd hold (hnil ▸ List.not_mem_nil)
        · rw [hbest, hbest', hs.word_eq_of_not_recorded ht hnew]

theorem correct_correct : d.correct (d.correct word) = d.correct word := by
  rcases d.correct_cases word with ⟨-, hself⟩ | ⟨-, hself⟩ | ⟨s, hs, hbest⟩
  · rw [hself, hself]
  · rw [hself, hself]
  · obtain ⟨-, hcount, hpos⟩ := mem_suggestions_iff_frequency.mp hs.mem
    rw [hbest]
    exact correct_eq_self (.inr (knows_iff.mpr (hcount ▸ hpos)))

end Correction

end Dictionary

namespace Session

/-- Whatever is asked of a session, what a word is corrected to afterwards is what it was corrected to before or one of
the words that were recorded since.  So recording a correction does not change it, and correcting it again does not
either.  None of this depends on the order in which a correction goes through the dictionary. -/
theorem correct_after_requests (d : Dictionary) (word : Text) :
    (∀ requests, (final d requests).correct word = d.correct word ∨
        (final d requests).correct word ∈ recorded requests) ∧
      (∀ times, (final d [.record (d.correct word) times]).correct word = d.correct word) ∧
      d.correct (d.correct word) = d.correct word ∧
      ∀ entries, entries.Perm d.counts.toList → d.correctAmong entries word = d.correct word := by
  have hrequests : ∀ requests, (final d requests).correct word = d.correct word ∨
      (final d requests).correct word ∈ recorded requests := by
    intro requests
    rw [final_eq_recordAll]
    exact d.correct_recordAll word (recorded requests)
  refine ⟨hrequests, ?_, d.correct_correct word, fun entries hentries => d.correctAmong_of_perm hentries word⟩
  intro times
  rcases hrequests [.record (d.correct word) times] with hsame | hrecorded
  · exact hsame
  · rw [recorded, List.flatMap_singleton] at hrecorded
    exact List.eq_of_mem_replicate hrecorded

end Session

end SourceIndex
