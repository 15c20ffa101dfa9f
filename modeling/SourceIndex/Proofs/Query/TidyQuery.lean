import SourceIndex.Proofs.Query.CandidateTokens

/-!
# Tidy queries

A tidy query neither starts nor ends with a separator (`isSeparator_head_tidy`, `isSeparator_getLast_tidy`).  Making a
query tidy trims control characters away that set no tokens apart, and these stand in terms only.  So a query that keeps
its terms keeps all its tokens (`tokens_tidy_of_terms`).
-/

namespace SourceIndex.Query

open Fallback

/-! ### What a tidy query loses -/

theorem flatten_tokens (t : Text) : (tokens t).flatten = t.filter fun c => !isSeparator c := by
  have hwords : ∀ words : List Text, (words.filter fun word => !word.isEmpty).flatten = words.flatten := by
    intro words
    induction words with
    | nil => rfl
    | cons word words ih => cases word <;> simp [ih]
  unfold tokens
  rw [hwords]
  induction t with
  | nil => rfl
  | cons c t ih =>
    rw [List.splitOnP_cons_eq_if_modifyHead]
    split
    · next hc => simp [hc, ih]
    · next hc =>
      obtain ⟨first, rest, hsplit⟩ := List.exists_cons_of_ne_nil (List.splitOnP_ne_nil isSeparator t)
      rw [hsplit] at ih ⊢
      simp [hc, ← ih]

theorem exists_mem_tokens {t : Text} {c : Char} (h : c ∈ t) (hc : isSeparator c = false) :
    ∃ token ∈ tokens t, c ∈ token := by
  rw [← List.mem_flatten, flatten_tokens]
  exact List.mem_filter.mpr ⟨h, by simp [hc]⟩

/-- Whether a character is trimmed like a blank, but sets no tokens apart. -/
def isControl (c : Char) : Bool := Text.isBlank c && !isSeparator c

private theorem countP_word (op : Operator) : op.word.countP isControl = 0 := by cases op <;> decide

/-- Control characters stand in terms only. -/
private theorem countP_flatten_terms (t : Text) : (terms t).flatten.countP isControl = t.countP isControl := by
  have hterms : ∀ ts : List Text, (ts.filter isTerm).flatten.countP isControl = ts.flatten.countP isControl := by
    intro ts
    induction ts with
    | nil => rfl
    | cons token ts ih =>
      cases hterm : isTerm token with
      | true => rw [List.filter_cons_of_pos hterm, List.flatten_cons, List.flatten_cons, List.countP_append,
          List.countP_append, ih]
      | false =>
        obtain ⟨op, rfl⟩ := isTerm_eq_false_iff.mp hterm
        rw [List.filter_cons_of_neg (by simp [hterm]), List.flatten_cons, List.countP_append, countP_word, ih,
          Nat.zero_add]
  have hcontrol : (fun c => isControl c && !isSeparator c) = isControl := by
    funext c
    simp [isControl]
  unfold terms
  rw [hterms, flatten_tokens, List.countP_filter, hcontrol]

private theorem tokens_append_separators {left right : Text} (hleft : ∀ c ∈ left, isSeparator c = true)
    (hright : ∀ c ∈ right, isSeparator c = true) (t : Text) : tokens (left ++ (t ++ right)) = tokens t := by
  have hend : tokens (t ++ right) = tokens t := by
    cases right with
    | nil => rw [List.append_nil]
    | cons c right =>
      obtain ⟨hc, hright⟩ := List.forall_mem_cons.mp hright
      rw [tokens_append_cons hc, tokens_eq_nil_iff.mpr hright, List.append_nil]
  induction left with
  | nil => exact hend
  | cons c left ih =>
    obtain ⟨hc, hleft⟩ := List.forall_mem_cons.mp hleft
    rw [List.cons_append, tokens_cons hc, ih hleft]

/-- A query that keeps its terms when it is made tidy keeps all its tokens. -/
theorem tokens_tidy_of_terms {query : Text} (h : terms (tidy query) = terms query) :
    tokens (tidy query) = tokens query := by
  obtain ⟨left, right, hquery, hleft, hright⟩ := Text.exists_trimBy_append Text.isBlank query
  have htokens : tokens (tidy query) = tokens (Text.trimBy Text.isBlank query) := tokens_squeezeSpaces _
  have hterms : terms (Text.trimBy Text.isBlank query) = terms query := by
    rw [← h]
    unfold terms
    rw [htokens]
  have hcount := countP_flatten_terms query
  rw [← hterms, countP_flatten_terms] at hcount
  generalize Text.trimBy Text.isBlank query = middle at hquery htokens hcount
  rw [hquery, List.countP_append, List.countP_append] at hcount
  have hseparators : ∀ {t : Text}, (∀ c ∈ t, Text.isBlank c = true) → t.countP isControl = 0 →
      ∀ c ∈ t, isSeparator c = true := by
    intro t hblank hnone c hc
    have hfree := List.countP_eq_zero.mp hnone c hc
    simpa [isControl, hblank c hc] using hfree
  rw [htokens, hquery, tokens_append_separators (hseparators hleft (by omega)) (hseparators hright (by omega))]

/-! ### The ends of a tidy query -/

private theorem isSeparator_of_not_isBlank {c : Char} (h : Text.isBlank c = false) : isSeparator c = false := by
  rw [← Bool.not_eq_true]
  intro hsep
  have hle : c ≤ ' ' := toNat_le_of_isSeparator hsep
  simp [Text.isBlank, hle] at h

theorem isSeparator_head_tidy {query : Text} {c : Char} (h : (tidy query).head? = some c) : isSeparator c = false := by
  unfold tidy at h
  rw [Text.head?_squeezeSpaces] at h
  exact isSeparator_of_not_isBlank (Text.head_trimBy h)

theorem isSeparator_getLast_tidy {query : Text} {c : Char} (h : (tidy query).getLast? = some c) :
    isSeparator c = false := by
  unfold tidy at h
  rw [Text.getLast?_squeezeSpaces] at h
  exact isSeparator_of_not_isBlank (Text.getLast_trimBy h)

end SourceIndex.Query
