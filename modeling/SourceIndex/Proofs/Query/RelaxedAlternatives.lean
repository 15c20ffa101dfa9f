import SourceIndex.Proofs.Keyword.CutWords
import SourceIndex.Proofs.Query.RelaxedWords
import SourceIndex.Proofs.Query.TidyQuery
import SourceIndex.Proofs.Query.UsableAlternatives

/-!
# Relaxed queries among the alternatives

A query has an alternative in which all operators that its tokens show are relaxed only if the replacement between
spaces reaches each of them, and if trimming the query changes no token.  No other candidate can stand in, except by
chance the corrected one: letters and digits alone keep the operators (`letterRuns_tidy_ne_relaxed`), the pieces of
compounds are no words of the query (`compoundPieces_tidy_ne_relaxed`), and another relaxation replaces other operators
(`eq_of_replaces`).
-/

namespace SourceIndex.Query

open Fallback

/-! ### Candidates that are made of letters and digits -/

private theorem splitOnP_congr {p q : Char → Bool} {t : Text} (h : ∀ c ∈ t, p c = q c) :
    t.splitOnP p = t.splitOnP q := by
  induction t with
  | nil => rfl
  | cons c t ih =>
    obtain ⟨hc, ht⟩ := List.forall_mem_cons.mp h
    rw [List.splitOnP_cons_eq_if_modifyHead, List.splitOnP_cons_eq_if_modifyHead, hc, ih ht]

theorem letterRuns_eq_tokens {t : Text} (h : ∀ token ∈ tokens t, ∀ c ∈ token, c.isAlphanum = true) :
    letterRuns t = tokens t := by
  have hsame : ∀ c ∈ t, (!c.isAlphanum) = isSeparator c := by
    intro c hc
    cases hsep : isSeparator c with
    | true =>
      rw [Bool.not_eq_true']
      by_contra hletter
      simp [isSeparator_of_isAlphanum (by simpa using hletter)] at hsep
    | false =>
      obtain ⟨token, htoken, hmem⟩ := exists_mem_tokens hc hsep
      rw [h token htoken c hmem, Bool.not_true]
  unfold letterRuns tokens
  rw [splitOnP_congr hsame]

/-- A query of letters and digits keeps its tokens when it is made tidy, and they are its runs of letters and digits. -/
theorem letterRuns_tidy {query : Text} (h : ∀ token ∈ tokens query, ∀ c ∈ token, c.isAlphanum = true) :
    tokens (tidy query) = tokens query ∧ letterRuns (tidy query) = tokens query := by
  have htidy : tokens (tidy query) = tokens query := by
    have hblanks : ∀ c ∈ query, Text.isBlank c = true → isSeparator c = true := by
      intro c hc hblank
      by_contra hsep
      rw [Bool.not_eq_true] at hsep
      obtain ⟨token, htoken, hmem⟩ := exists_mem_tokens hc hsep
      have hbounds := Text.isAlphanum_bounds (h token htoken c hmem)
      have hle : c.toNat ≤ 0x20 := of_decide_eq_true hblank
      omega
    unfold tidy
    rw [tokens_squeezeSpaces]
    exact tokens_trimBy hblanks
  refine ⟨htidy, ?_⟩
  rw [letterRuns_eq_tokens (htidy ▸ h), htidy]

private theorem isAlphanum_of_mem_letterRuns {t run : Text} (h : run ∈ letterRuns t) :
    ∀ c ∈ run, c.isAlphanum = true := by
  intro c hc
  rw [← tokens_map_alphanumericOrSpace] at h
  have hmem : c ∈ (tokens (t.map Text.alphanumericOrSpace)).flatten := List.mem_flatten.mpr ⟨run, h, hc⟩
  rw [flatten_tokens, List.mem_filter] at hmem
  rcases Text.isAlphanum_or_space_of_mem_map hmem.1 with hletter | rfl
  · exact hletter
  · simp [isSeparator_space] at hmem

private theorem isAlphanum_of_mem_word {op : Operator} {c : Char} (h : c ∈ op.word) : c.isAlphanum = true := by
  have hletters : op.word.all Char.isAlphanum = true := by cases op <;> decide
  exact List.all_eq_true.mp hletters c h

variable {r : Relaxation} {query : Text}

/-- Tokens of letters and digits only are left by a relaxation if there were no others before. -/
private theorem isAlphanum_of_relaxed {ts : List Text}
    (h : ∀ token ∈ r.relaxed ts, ∀ c ∈ token, c.isAlphanum = true) :
    ∀ token ∈ ts, ∀ c ∈ token, c.isAlphanum = true := by
  intro token htoken c hc
  rcases Relaxation.eq_word_or_mem_relaxed (r := r) htoken with rfl | hrelaxed
  · exact isAlphanum_of_mem_word hc
  · exact h token hrelaxed c hc

/-- Letters and digits alone keep the operators. -/
theorem letterRuns_tidy_ne_relaxed (h : r.relaxed (tokens query) ≠ tokens query) :
    letterRuns (tidy query) ≠ r.relaxed (tokens query) := by
  intro heq
  have hletters : ∀ token ∈ tokens query, ∀ c ∈ token, c.isAlphanum = true :=
    isAlphanum_of_relaxed fun token htoken => isAlphanum_of_mem_letterRuns (heq ▸ htoken)
  rw [(letterRuns_tidy hletters).2] at heq
  exact h heq.symm

private theorem length_word (op : Operator) : op.word.length ≤ 3 := by cases op <;> decide

private theorem mem_letterRuns_of_isCompound {limit : Nat} {t word : Text} (h : word ∈ CamelCase.words limit t)
    (hcompound : CamelCase.isCompound word = true) : word ∈ letterRuns t := by
  have hspaces : ∀ c ∈ t.map Text.alphanumericOrSpace, (c == ' ') = isSeparator c := by
    intro c hc
    rcases Text.isAlphanum_or_space_of_mem_map hc with hletter | rfl
    · rw [isSeparator_of_isAlphanum hletter, beq_eq_false_iff_ne]
      rintro rfl
      exact absurd hletter (by decide)
    · decide
  have hword := CamelCase.mem_splitOn_of_isCompound h hcompound
  rw [List.splitOn, splitOnP_congr hspaces] at hword
  rw [← tokens_map_alphanumericOrSpace]
  refine List.mem_filter.mpr ⟨hword, ?_⟩
  have hlong := CamelCase.length_of_isCompound hcompound
  have hne : word ≠ [] := List.ne_nil_of_length_pos (by omega)
  simpa using hne

/-- The pieces of compounds are no words of the query, as a compound has a capital past its first character. -/
theorem compoundPieces_tidy_ne_relaxed {limit : Nat} (h : r.relaxed (tokens query) ≠ tokens query) :
    CamelCase.compoundPieces limit (tidy query) ≠ r.relaxed (tokens query) := by
  intro heq
  have hletters : ∀ token ∈ tokens query, ∀ c ∈ token, c.isAlphanum = true :=
    isAlphanum_of_relaxed fun token htoken => CamelCase.isAlphanum_of_mem_compoundPieces (heq ▸ htoken)
  have hne : r.relaxed (tokens query) ≠ [] := by
    refine Relaxation.relaxed_ne_nil ?_
    intro hnil
    simp [hnil, Relaxation.relaxed, interior] at h
  obtain ⟨piece, hpiece⟩ := List.exists_mem_of_ne_nil _ (heq ▸ hne)
  obtain ⟨word, hword, -⟩ := List.mem_flatMap.mp hpiece
  obtain ⟨hmem, hcompound⟩ := List.mem_filter.mp hword
  have htoken : word ∈ tokens query := (letterRuns_tidy hletters).2 ▸ mem_letterRuns_of_isCompound hmem hcompound
  have hrelaxed : word ∈ r.relaxed (tokens query) := by
    refine (Relaxation.eq_word_or_mem_relaxed htoken).resolve_left ?_
    rintro rfl
    have hshort := length_word r.op
    have hlong := CamelCase.length_of_isCompound hcompound
    omega
  obtain ⟨c, hc, hupper⟩ := CamelCase.exists_isUpper_of_isCompound hcompound
  rw [← heq] at hrelaxed
  simp [CamelCase.isUpper_eq_false_of_mem_compoundPieces hrelaxed c hc] at hupper

/-! ### Relaxed candidates -/

namespace Relaxation

/-- The candidate that a relaxation makes of a tidy query. -/
def candidate (r : Relaxation) (query : Text) : Candidate := ⟨Text.replaceAll (between r.op) r.text query, true⟩

private theorem dotted_notMem_text : 'İ' ∉ r.text := by
  unfold text Text.spaced
  rw [List.mem_append, not_or, List.mem_flatMap]
  refine ⟨?_, by decide⟩
  rintro ⟨word, hword, hmem⟩
  obtain ⟨op, -, rfl⟩ := List.mem_map.mp hword
  exact absurd hmem (by cases op <;> decide)

theorem qualifies_candidate_iff : qualifies query (r.candidate query) = true ↔ between r.op <:+: query := by
  have hlength : r.text.length < (between r.op).length := by
    have hshorter := r.shorter
    simpa [text] using hshorter
  have hne : r.text ≠ [] := by simp [text]
  exact qualifies_relaxed_iff r.op query hlength hne dotted_notMem_text

private theorem filter_replacement : (r.replacement.map Operator.word).filter isTerm = [] := by
  rw [List.filter_map, List.filter_eq_nil_iff.mpr, List.map_nil]
  intro op _
  simp [isTerm_word]

private theorem isBreak_text : IsBreak r.text := by
  intro left right
  unfold terms
  rw [tokens_text_append, List.filter_append, List.filter_append, filter_replacement, List.append_nil]

theorem terms_candidate (r : Relaxation) (query : Text) : terms (r.candidate query).text = terms query :=
  terms_replaceAll (List.cons_ne_nil _ _) (isBreak_between r.op) isBreak_text query

private theorem filter_flatMap_put (ts : List Text) : (ts.flatMap r.put).filter isTerm = ts.filter isTerm := by
  induction ts with
  | nil => rfl
  | cons token ts ih =>
    rw [List.flatMap_cons, List.filter_append, ih]
    by_cases htoken : token = r.op.word
    · rw [htoken, put_word, filter_replacement, List.filter_cons_of_neg (by simp [isTerm_word]), List.nil_append]
    · rw [put_of_ne htoken, ← List.filter_append, List.singleton_append]

theorem filter_relaxed (ts : List Text) : (r.relaxed ts).filter isTerm = ts.filter isTerm := by
  rcases length_le_one_or_interior ts with hshort | ⟨first, last, hts⟩
  · rw [relaxed_of_length_le_one hshort]
  · rw [hts, relaxed_cons_concat, List.filter_cons, List.filter_cons, List.filter_append, List.filter_append,
      filter_flatMap_put]

/-- A relaxed candidate with the wanted tokens comes from a query that lost none when it was made tidy, and from the
same relaxation. -/
private theorem eq_of_tokens_candidate {r' : Relaxation} (hr : r ∈ relaxations) (hr' : r' ∈ relaxations)
    (h : r.relaxed (tokens query) ≠ tokens query)
    (htokens : tokens (r'.candidate (tidy query)).text = r.relaxed (tokens query)) :
    tokens (tidy query) = tokens query ∧ r = r' := by
  have hterms : terms (tidy query) = terms query := by
    rw [← terms_candidate r']
    unfold terms
    rw [htokens, filter_relaxed]
  have htidy := tokens_tidy_of_terms hterms
  refine ⟨htidy, ?_⟩
  obtain ⟨times, hreplaces⟩ := exists_replaces_replaceAll (r := r') (tidy query)
  have hwanted := replaces_relaxed (r := r) (tokens query)
  rw [← htokens, ← htidy] at hwanted
  refine eq_of_replaces hr hr' ?_ hwanted hreplaces
  rw [htidy]
  exact List.count_pos_iff.mpr (word_mem_interior h)

end Relaxation

theorem candidates_eq (limit : Nat) (correct : Text → Text) (query : Text) : candidates limit correct query =
    [⟨withoutPunctuation query, false⟩, ⟨camelCaseWords limit query, false⟩, ⟨corrected correct query, true⟩]
      ++ relaxations.map fun r => r.candidate query := rfl

namespace Formatter

/-- When a query has an alternative with the tokens of the query, but with an operator replaced wherever it is neither
the first nor the last of them: if trimming changes no token, each of these operators stands alone between single spaces
and no two of them are next to each other, or if the corrected query is such an alternative by chance. -/
theorem alternatives_relaxed_iff (f : Formatter) (correct : Text → Text) (query : Text) {r : Relaxation}
    (hr : r ∈ relaxations) (hchanged : r.relaxed (tokens query) ≠ tokens query) :
    let tidied := tidy query
    let wanted := r.relaxed (tokens query)
    r.op.word ∉ interior wanted ∧
      ((∃ alternative ∈ f.alternatives correct query, tokens alternative = wanted) ↔
        tokens tidied = tokens query ∧ r.Reaches tidied ∨
          corrected correct tidied ∈ f.alternatives correct query ∧ tokens (corrected correct tidied) = wanted) := by
  intro tidied wanted
  refine ⟨Relaxation.word_notMem_interior_relaxed _, ?_⟩
  have hreaches : tokens tidied = tokens query → (tokens (r.candidate tidied).text = wanted ↔ r.Reaches tidied) := by
    intro htidy
    have hop : r.op.word ∈ interior (tokens tidied) := htidy ▸ Relaxation.word_mem_interior hchanged
    have hiff := Relaxation.tokens_replaceAll_iff (fun c => isSeparator_head_tidy)
      (fun c => isSeparator_getLast_tidy) hop
    rwa [htidy] at hiff
  constructor
  · rintro ⟨alternative, halternative, htokens⟩
    obtain ⟨candidate, hcandidate, hqualifies, rfl⟩ := mem_alternatives_iff.mp halternative
    rw [candidates_eq, List.mem_append, List.mem_map] at hcandidate
    rcases hcandidate with hfirst | ⟨r', hr', rfl⟩
    · simp only [List.mem_cons, List.not_mem_nil, or_false] at hfirst
      rcases hfirst with rfl | rfl | rfl
      · dsimp only at htokens
        rw [tokens_withoutPunctuation] at htokens
        exact absurd htokens (letterRuns_tidy_ne_relaxed hchanged)
      · dsimp only at htokens
        rw [tokens_camelCaseWords] at htokens
        exact absurd htokens (compoundPieces_tidy_ne_relaxed hchanged)
      · exact .inr ⟨halternative, htokens⟩
    · left
      obtain ⟨htidy, rfl⟩ := Relaxation.eq_of_tokens_candidate hr hr' hchanged htokens
      exact ⟨htidy, (hreaches htidy).mp htokens⟩
  · rintro (⟨htidy, hreach⟩ | ⟨hmem, htokens⟩)
    · have htokens := (hreaches htidy).mpr hreach
      refine ⟨(r.candidate tidied).text, mem_alternatives_iff.mpr ⟨r.candidate tidied, ?_, ?_, rfl⟩, htokens⟩
      · rw [candidates_eq]
        exact List.mem_append_right _ (List.mem_map.mpr ⟨r, hr, rfl⟩)
      · refine Relaxation.qualifies_candidate_iff.mpr ?_
        by_contra hnone
        -- without the operator between spaces the candidate would be the query
        have hself : (r.candidate tidied).text = tidied := Text.replaceAll_eq_self hnone r.text
        rw [hself, htidy] at htokens
        exact hchanged htokens.symm
    · exact ⟨_, hmem, htokens⟩

/-- Between spaces an operator is relaxed, but between tabs it is not. -/
theorem relaxed_between_spaces_only :
    let f : Formatter := ⟨escapeTerm, true, 100000⟩
    let correct := Dictionary.empty.correct
    let query := "x AND y\tNOT\tz".toList
    (Relaxation.andToOr.relaxed (tokens query) ≠ tokens query ∧
        ∃ alternative ∈ f.alternatives correct query, tokens alternative = Relaxation.andToOr.relaxed (tokens query)) ∧
      Relaxation.withoutNot.relaxed (tokens query) ≠ tokens query ∧
        ¬ ∃ alternative ∈ f.alternatives correct query,
          tokens alternative = Relaxation.withoutNot.relaxed (tokens query) := by
  intro f correct query
  have hand : Relaxation.andToOr.relaxed (tokens query) ≠ tokens query := by decide +kernel
  have hnot : Relaxation.withoutNot.relaxed (tokens query) ≠ tokens query := by decide +kernel
  refine ⟨⟨hand, ?_⟩, hnot, ?_⟩
  · refine (alternatives_relaxed_iff f correct query (by simp [relaxations]) hand).2.mpr
      (.inl ⟨by decide +kernel, ?_, ?_⟩)
    · decide +kernel
    · decide +kernel
  · rw [(alternatives_relaxed_iff f correct query (by simp [relaxations]) hnot).2]
    rintro (⟨-, halone, -⟩ | ⟨-, htokens⟩)
    · exact absurd halone (by decide +kernel)
    · exact absurd htokens (by decide +kernel)

/-- Of two operators next to each other one survives, because replacing the first uses up the space before the second:
no alternative of the query `a AND AND b` has an `OR` in place of both. -/
theorem second_operator_survives :
    let f : Formatter := ⟨escapeTerm, true, 100000⟩
    let query := "a AND AND b".toList
    Relaxation.andToOr.relaxed (tokens query) = ["a".toList, "OR".toList, "OR".toList, "b".toList] ∧
      Relaxation.andToOr.relaxed (tokens query) ≠ tokens query ∧
      ∀ alternative ∈ f.alternatives Dictionary.empty.correct query,
        tokens alternative ≠ Relaxation.andToOr.relaxed (tokens query) := by
  decide +kernel

end Formatter

end SourceIndex.Query
