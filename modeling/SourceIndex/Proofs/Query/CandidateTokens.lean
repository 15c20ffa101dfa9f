import SourceIndex.Proofs.Keyword.CompoundPieces
import SourceIndex.Proofs.Query.QueryTerms

/-!
# The terms of fallback queries

A query without punctuation has the runs of letters and digits of the query for its tokens
(`tokens_withoutPunctuation`), and an operator among them counts as one again.  The words of camel-case identifiers are
pieces of compounds (`tokens_camelCaseWords`), and these are always terms.
-/

namespace SourceIndex

/-! ### Letters and digits -/

theorem isWhitespace_of_isAlphanum {c : Char} (h : c.isAlphanum = true) : Text.isWhitespace c = false := by
  have hbounds := Text.isAlphanum_bounds h
  simp [Text.isWhitespace, Text.whitespaceRanges]
  omega

namespace Query

open Fallback

theorem isSeparator_of_isAlphanum {c : Char} (h : c.isAlphanum = true) : isSeparator c = false := by
  have hbounds := Text.isAlphanum_bounds h
  rw [← Bool.not_eq_true]
  intro hsep
  have hblank := toNat_le_of_isSeparator hsep
  omega

/-- White space among letters, digits and spaces is a separator. -/
theorem tokens_trimWhitespace {t : Text} (h : ∀ c ∈ t, c.isAlphanum = true ∨ c = ' ') :
    tokens (Text.trimWhitespace t) = tokens t := by
  refine tokens_trimBy ?_
  intro c hc hwhite
  rcases h c hc with hletter | rfl
  · simp [isWhitespace_of_isAlphanum hletter] at hwhite
  · exact isSeparator_space

theorem tokens_squeezeSpaces (t : Text) : tokens (Text.squeezeSpaces t) = tokens t := by
  -- the characters before a run of spaces may belong to the token that it ends, so they are kept along
  suffices h : ∀ done, tokens (done ++ Text.squeezeSpaces t) = tokens (done ++ t) from h []
  induction t with
  | nil =>
    intro done
    rfl
  | cons c t ih =>
    intro done
    have hrest : tokens (Text.squeezeSpaces t) = tokens t := ih []
    by_cases hrun : c = ' ' ∧ (Text.squeezeSpaces t).head? = some ' '
    · obtain ⟨rfl, hhead⟩ := hrun
      obtain ⟨rest, hsqueezed⟩ := List.head?_eq_some_iff.mp hhead
      rw [hsqueezed, tokens_cons isSeparator_space] at hrest
      rw [Text.squeezeSpaces_cons, if_pos (by simp [hhead]), hsqueezed, tokens_append_cons isSeparator_space,
        tokens_append_cons isSeparator_space, hrest]
    · have hnext := ih (done ++ [c])
      rw [List.append_assoc, List.append_assoc] at hnext
      rw [Text.squeezeSpaces_cons, if_neg (by simpa using hrun)]
      exact hnext

theorem tokens_eq_nil_iff {t : Text} : tokens t = [] ↔ ∀ c ∈ t, isSeparator c = true := by
  induction t with
  | nil => simp [tokens_nil]
  | cons c t ih =>
    rw [List.forall_mem_cons, ← ih]
    by_cases hc : isSeparator c = true
    · rw [tokens_cons hc, and_iff_right hc]
    · refine iff_of_false ?_ fun h => hc h.1
      obtain ⟨first, rest, hsplit⟩ := List.exists_cons_of_ne_nil (List.splitOnP_ne_nil isSeparator t)
      unfold tokens
      rw [List.splitOnP_cons_eq_if_modifyHead, if_neg hc, hsplit, List.modifyHead_cons]
      simp

/-! ### Queries without punctuation -/

/-- The runs of ASCII letters and digits in a query. -/
def letterRuns (query : Text) : List Text :=
  (query.splitOnP fun c => !c.isAlphanum).filter fun run => !run.isEmpty

private theorem isSeparator_alphanumericOrSpace (c : Char) :
    isSeparator (Text.alphanumericOrSpace c) = !c.isAlphanum := by
  unfold Text.alphanumericOrSpace
  split
  · next hc => rw [isSeparator_of_isAlphanum hc, hc, Bool.not_true]
  · next hc => simp [isSeparator_space, hc]

theorem tokens_map_alphanumericOrSpace (query : Text) :
    tokens (query.map Text.alphanumericOrSpace) = letterRuns query := by
  suffices h : (query.map Text.alphanumericOrSpace).splitOnP isSeparator = query.splitOnP fun c => !c.isAlphanum by
    unfold tokens letterRuns
    rw [h]
  induction query with
  | nil => rfl
  | cons c query ih =>
    rw [List.map_cons, List.splitOnP_cons_eq_if_modifyHead, List.splitOnP_cons_eq_if_modifyHead, ih,
      isSeparator_alphanumericOrSpace]
    by_cases hc : c.isAlphanum = true
    · simp [Text.alphanumericOrSpace, hc]
    · simp [hc]

theorem tokens_withoutPunctuation (query : Text) : tokens (withoutPunctuation query) = letterRuns query := by
  unfold withoutPunctuation
  rw [tokens_squeezeSpaces, tokens_trimWhitespace fun _ => Text.isAlphanum_or_space_of_mem_map,
    tokens_map_alphanumericOrSpace]

theorem withoutPunctuation_eq_nil_iff {query : Text} : withoutPunctuation query = [] ↔ letterRuns query = [] := by
  constructor
  · intro h
    rw [← tokens_withoutPunctuation, h, tokens_nil]
  · intro h
    rw [← tokens_map_alphanumericOrSpace, tokens_eq_nil_iff] at h
    have hwhite : ∀ c ∈ query.map Text.alphanumericOrSpace, Text.isWhitespace c = true := by
      intro c hc
      rcases Text.isAlphanum_or_space_of_mem_map hc with hletter | rfl
      · exact absurd (h c hc) (by simp [isSeparator_of_isAlphanum hletter])
      · decide
    unfold withoutPunctuation Text.trimWhitespace Text.trimBy
    rw [List.dropWhile_eq_nil_iff.mpr hwhite]
    rfl

/-! ### Words of camel-case identifiers -/

theorem tokens_spaced {ts : List Text} (h : ∀ t ∈ ts, t ≠ [] ∧ ∀ c ∈ t, isSeparator c = false) :
    tokens (Text.spaced ts) = ts := by
  induction ts with
  | nil => rfl
  | cons t ts ih =>
    obtain ⟨⟨hne, hfree⟩, hts⟩ := List.forall_mem_cons.mp h
    have hrest := ih hts
    have hword := tokens_of_forall hfree hne
    have hspaced : Text.spaced (t :: ts) = ' ' :: (t ++ Text.spaced ts) := rfl
    rw [hspaced, tokens_cons isSeparator_space]
    cases ts with
    | nil => rw [Text.spaced, List.flatMap_nil, List.append_nil, hword]
    | cons next ts =>
      have hnext : Text.spaced (next :: ts) = ' ' :: (next ++ Text.spaced ts) := rfl
      rw [hnext, tokens_cons isSeparator_space] at hrest
      rw [hnext, tokens_append_cons isSeparator_space, hword, hrest]
      rfl

/-- An operator has a capital past its first character, which no piece of a compound has. -/
theorem isTerm_of_mem_compoundPieces {limit : Nat} {content piece : Text}
    (h : piece ∈ CamelCase.compoundPieces limit content) : isTerm piece = true := by
  rw [← Bool.not_eq_false, isTerm_eq_false_iff]
  rintro ⟨op, rfl⟩
  have hcapital : op.word.tail.any Char.isUpper = true := by cases op <;> decide
  obtain ⟨c, hc, hupper⟩ := List.any_eq_true.mp hcapital
  simp [CamelCase.isUpper_eq_false_of_mem_compoundPieces h c hc] at hupper

theorem tokens_camelCaseWords (limit : Nat) (query : Text) :
    tokens (camelCaseWords limit query) = CamelCase.compoundPieces limit query := by
  have hletters : ∀ c ∈ CamelCase.expand limit query, c.isAlphanum = true ∨ c = ' ' := by
    intro c hc
    obtain ⟨piece, hpiece, hc⟩ := List.mem_flatMap.mp hc
    rcases List.mem_cons.mp hc with rfl | hc
    · exact .inr rfl
    · exact .inl (CamelCase.isAlphanum_of_mem_compoundPieces hpiece c hc)
  unfold camelCaseWords
  rw [tokens_trimWhitespace hletters, CamelCase.expand_eq_spaced]
  refine tokens_spaced ?_
  intro piece hpiece
  exact ⟨CamelCase.ne_nil_of_mem_compoundPieces hpiece,
    fun c hc => isSeparator_of_isAlphanum (CamelCase.isAlphanum_of_mem_compoundPieces hpiece c hc)⟩

theorem terms_camelCaseWords_ne_nil {limit : Nat} {query : Text} (h : camelCaseWords limit query ≠ []) :
    terms (camelCaseWords limit query) ≠ [] := by
  intro hnone
  rw [terms_eq_nil_iff, tokens_camelCaseWords] at hnone
  have hpieces : CamelCase.compoundPieces limit query = [] := by
    rw [List.eq_nil_iff_forall_not_mem]
    intro piece hpiece
    have hterm := hnone piece hpiece
    simp [isTerm_of_mem_compoundPieces hpiece] at hterm
  apply h
  unfold camelCaseWords
  rw [CamelCase.expand_eq_spaced, hpieces]
  rfl

end Query

end SourceIndex
