import SourceIndex.Keyword.CamelCase
import SourceIndex.Proofs.Text.Parts

/-!
# The pieces of compounds

A piece is a part of a word of ASCII letters and digits, is not empty, and has no capital past its first character.
-/

namespace SourceIndex

namespace Text

theorem isAlphanum_or_space_of_mem_map {content : Text} {c : Char} (h : c ∈ content.map alphanumericOrSpace) :
    c.isAlphanum = true ∨ c = ' ' := by
  obtain ⟨d, -, rfl⟩ := List.mem_map.mp h
  unfold alphanumericOrSpace
  split
  · next hd => exact .inl hd
  · exact .inr rfl

end Text

namespace CamelCase

theorem isAlphanum_of_mem_words {limit : Nat} {content word : Text} (h : word ∈ words limit content) {c : Char}
    (hc : c ∈ word) : c.isAlphanum = true := by
  obtain ⟨hclip, hspace⟩ := Text.mem_of_mem_splitOn h hc
  rcases Text.mem_clip hclip with hcontent | hmark
  · exact (Text.isAlphanum_or_space_of_mem_map hcontent).resolve_right hspace
  · have hletters : Text.cutMark.all Char.isAlphanum = true := by decide
    exact List.all_eq_true.mp hletters c hmark

theorem map_alphanumericOrSpace {word : Text} (h : ∀ c ∈ word, c.isAlphanum = true) :
    word.map Text.alphanumericOrSpace = word := by
  have hsame : ∀ c ∈ word, Text.alphanumericOrSpace c = id c := fun c hc => if_pos (h c hc)
  rw [List.map_congr_left hsame, List.map_id]

/-- The pieces of the compounds among the words of a content. -/
def compoundPieces (limit : Nat) (content : Text) : List Text :=
  ((words limit content).filter isCompound).flatMap pieces

theorem expand_eq_spaced (limit : Nat) (content : Text) :
    expand limit content = Text.spaced (compoundPieces limit content) := rfl

section Pieces

variable {limit : Nat} {content piece : Text}

private theorem exists_word_of_mem (h : piece ∈ compoundPieces limit content) :
    ∃ word ∈ words limit content, piece ∈ pieces word := by
  obtain ⟨word, hword, hpiece⟩ := List.mem_flatMap.mp h
  exact ⟨word, (List.mem_filter.mp hword).1, hpiece⟩

theorem ne_nil_of_mem_compoundPieces (h : piece ∈ compoundPieces limit content) : piece ≠ [] := by
  obtain ⟨word, -, hpiece⟩ := exists_word_of_mem h
  exact List.ne_nil_of_mem_splitBy hpiece

theorem isAlphanum_of_mem_compoundPieces (h : piece ∈ compoundPieces limit content) :
    ∀ c ∈ piece, c.isAlphanum = true := by
  intro c hc
  obtain ⟨word, hword, hpiece⟩ := exists_word_of_mem h
  have hflat : (pieces word).flatten = word := List.flatten_splitBy _ word
  have hmem : c ∈ word := by
    rw [← hflat]
    exact List.mem_flatten.mpr ⟨piece, hpiece, hc⟩
  exact isAlphanum_of_mem_words hword hmem

/-- A relation to the element before that does not look at it is a property of all elements but the first. -/
theorem isChain_iff_forall_mem_tail {α : Type} {p : α → Prop} {l : List α} :
    (l.IsChain fun _ b => p b) ↔ ∀ b ∈ l.tail, p b := by
  induction l with
  | nil => simp
  | cons a l ih =>
    cases l with
    | nil => simp
    | cons b l =>
      rw [List.isChain_cons_cons, ih]
      simp

/-- A piece ends before the next capital. -/
theorem isUpper_eq_false_of_mem_compoundPieces (h : piece ∈ compoundPieces limit content) :
    ∀ c ∈ piece.tail, c.isUpper = false := by
  intro c hc
  obtain ⟨word, -, hpiece⟩ := exists_word_of_mem h
  have hchain : piece.IsChain fun _ c => (!c.isUpper) = true := List.isChain_of_mem_splitBy hpiece
  simpa using isChain_iff_forall_mem_tail.mp hchain c hc

end Pieces

/-- A word is cut where it has a capital past its first character. -/
theorem one_lt_length_pieces_iff {word : Text} : 1 < (pieces word).length ↔ ∃ c ∈ word.tail, c.isUpper = true := by
  by_cases hnone : ∃ c ∈ word.tail, c.isUpper = true
  · refine iff_of_true ?_ hnone
    by_contra hshort
    obtain ⟨c, hc, hupper⟩ := hnone
    have hne : word ≠ [] := by
      rintro rfl
      simp at hc
    have hpos : 0 < (pieces word).length := List.length_pos_iff.mpr (List.splitBy_ne_nil.mpr hne)
    obtain ⟨piece, hpiece⟩ := List.length_eq_one_iff.mp (by omega : (pieces word).length = 1)
    have hflat : (pieces word).flatten = word := List.flatten_splitBy _ word
    rw [hpiece, List.flatten_singleton] at hflat
    have hmem : word ∈ pieces word := by
      rw [hpiece, hflat]
      exact List.mem_singleton_self word
    have hchain : word.IsChain fun _ c => (!c.isUpper) = true := List.isChain_of_mem_splitBy hmem
    simpa [hupper] using isChain_iff_forall_mem_tail.mp hchain c hc
  · refine iff_of_false ?_ hnone
    have hchain : word.IsChain fun _ c => (!c.isUpper) = true := by
      rw [isChain_iff_forall_mem_tail]
      intro c hc
      by_contra hupper
      exact hnone ⟨c, hc, by simpa using hupper⟩
    by_cases hnil : word = []
    · simp [pieces, hnil]
    · have hone : pieces word = [word] := List.splitBy_of_isChain hnil hchain
      simp [hone]

/-- A compound has a capital past its first character. -/
theorem exists_isUpper_of_isCompound {word : Text} (h : isCompound word = true) :
    ∃ c ∈ word.tail, c.isUpper = true := by
  simp only [isCompound, Bool.and_eq_true, decide_eq_true_eq] at h
  exact one_lt_length_pieces_iff.mp h.2

theorem length_of_isCompound {word : Text} (h : isCompound word = true) : 7 ≤ word.length := by
  simp only [isCompound, Bool.and_eq_true, decide_eq_true_eq] at h
  exact h.1.1

end CamelCase

end SourceIndex
