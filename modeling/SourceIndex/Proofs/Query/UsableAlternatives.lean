import SourceIndex.Proofs.Query.Alternatives
import SourceIndex.Proofs.Query.CandidateTokens
import SourceIndex.Spelling.Dictionary

/-!
# Alternatives without terms

An alternative that holds operators only is of no use, because formatting leaves nothing of it.  The words of
camel-case identifiers are always terms, and relaxing an operator keeps the terms around it (`usable_relaxed_iff`).
The two other candidates can lose every term: an operator may be all that is left of a query without its punctuation,
and a correction may turn a term into an operator.  So all alternatives of a query leave something exactly if these two
do, and if there is a term in a query of which an operator can be relaxed (`alternatives_usable_iff`).
-/

namespace SourceIndex.Query

open Fallback

/-! ### Candidates -/

/-- Whether a candidate of a query leaves something when it is formatted, if it is offered at all. -/
def Usable (query : Text) (candidate : Candidate) : Prop :=
  qualifies query candidate = true → terms candidate.text ≠ []

theorem usable_iff {query : Text} {candidate : Candidate} : Usable query candidate ↔
    candidate.text = [] ∨ candidate.repeats query = true ∨ terms candidate.text ≠ [] := by
  unfold Usable
  rw [qualifies_iff, imp_iff_not_or, not_and_or, not_not, Bool.not_eq_false, or_assoc]

theorem usable_camelCaseWords (limit : Nat) (query : Text) : Usable query ⟨camelCaseWords limit query, false⟩ := by
  intro hqualifies
  obtain ⟨hne, -⟩ := qualifies_iff.mp hqualifies
  dsimp only at hne ⊢
  exact terms_camelCaseWords_ne_nil hne

/-- A query in which an operator is replaced by something shorter is offered exactly if it has that operator. -/
theorem qualifies_relaxed_iff (op : Operator) (query : Text) {replacement : Text}
    (hlength : replacement.length < (between op).length) (hne : replacement ≠ []) (hdotted : 'İ' ∉ replacement) :
    qualifies query ⟨Text.replaceAll (between op) replacement query, true⟩ = true ↔ between op <:+: query := by
  have hpattern : between op ≠ [] := List.cons_ne_nil _ _
  have hdotted' : 'İ' ∉ between op := by cases op <;> decide
  have hrepeats : Candidate.repeats ⟨Text.replaceAll (between op) replacement query, true⟩ query = false
      ↔ between op <:+: query := by
    rw [← Bool.not_eq_true, Candidate.repeats, if_pos rfl, beq_iff_eq,
      Text.lowercase_replaceAll_eq_iff hlength hdotted' hdotted, not_not]
  rw [qualifies_iff, hrepeats, and_iff_right_iff_imp]
  intro hmem
  rw [ne_eq, Text.replaceAll_eq_nil_iff hpattern hne]
  rintro rfl
  exact hpattern (List.infix_nil.mp hmem)

/-- Such a query keeps the terms if what is put in is a break. -/
theorem usable_relaxed_iff (op : Operator) (query : Text) {replacement : Text} (hbreak : IsBreak replacement)
    (hlength : replacement.length < (between op).length) (hne : replacement ≠ []) (hdotted : 'İ' ∉ replacement) :
    Usable query ⟨Text.replaceAll (between op) replacement query, true⟩
      ↔ (between op <:+: query → terms query ≠ []) := by
  have hpattern : between op ≠ [] := List.cons_ne_nil _ _
  unfold Usable
  rw [qualifies_relaxed_iff op query hlength hne hdotted, terms_replaceAll hpattern (isBreak_between op) hbreak]

theorem forall_candidates_usable_iff {limit : Nat} {correct : Text → Text} {query : Text} :
    (∀ candidate ∈ candidates limit correct query, Usable query candidate) ↔
      Usable query ⟨withoutPunctuation query, false⟩ ∧ Usable query ⟨corrected correct query, true⟩ ∧
        (between .and <:+: query ∨ between .not <:+: query → terms query ≠ []) := by
  have hor := usable_relaxed_iff .and query (isBreak_between .or) (by decide) (by decide) (by decide)
  have hand := usable_relaxed_iff .and query isBreak_space (by decide) (by decide) (by decide)
  have hnot := usable_relaxed_iff .not query isBreak_space (by decide) (by decide) (by decide)
  simp only [candidates, List.forall_mem_cons, usable_camelCaseWords, hor, hand, hnot, List.not_mem_nil, false_implies,
    implies_true, and_true, true_and, or_imp, and_self_left]

theorem usable_withoutPunctuation_iff {query : Text} : Usable query ⟨withoutPunctuation query, false⟩ ↔
    letterRuns query = [] ∨ withoutPunctuation query = query ∨ ∃ run ∈ letterRuns query, isTerm run = true := by
  rw [usable_iff, withoutPunctuation_eq_nil_iff, ne_eq, terms_eq_nil_iff, tokens_withoutPunctuation]
  simp [Candidate.repeats]

theorem usable_corrected_iff {correct : Text → Text} {query : Text} : Usable query ⟨corrected correct query, true⟩ ↔
    corrected correct query = [] ∨ Text.lowercase (corrected correct query) = Text.lowercase query ∨
      terms (corrected correct query) ≠ [] := by
  rw [usable_iff]
  simp [Candidate.repeats]

/-! ### Alternatives -/

namespace Formatter

/-- When every alternative of a query leaves something once it is formatted: if not all runs of letters and digits in
the tidy query are operators, unless it has no punctuation or none of these runs; if the corrected query has a term,
unless it is empty or the tidy query; and if the tidy query has a term, unless it has no operator to relax. -/
theorem alternatives_usable_iff (f : Formatter) (correct : Text → Text) (query : Text) :
    let g := f.withEscape escapeTerm
    let tidied := tidy query
    (∀ alternative ∈ g.alternatives correct query, g.format alternative ≠ []) ↔
      (letterRuns tidied = [] ∨ withoutPunctuation tidied = tidied ∨ ∃ run ∈ letterRuns tidied, isTerm run = true) ∧
      (corrected correct tidied = [] ∨ Text.lowercase (corrected correct tidied) = Text.lowercase tidied ∨
        terms (corrected correct tidied) ≠ []) ∧
      (between .and <:+: tidied ∨ between .not <:+: tidied → terms tidied ≠ []) := by
  intro g tidied
  have hcandidates : (∀ alternative ∈ g.alternatives correct query, g.format alternative ≠ []) ↔
      ∀ candidate ∈ candidates g.splitLimit correct tidied, Usable tidied candidate := by
    constructor
    · intro h candidate hcandidate hqualifies
      have hformat := h candidate.text (mem_alternatives_iff.mpr ⟨candidate, hcandidate, hqualifies, rfl⟩)
      rwa [ne_eq, format_eq_nil_iff (keepsTerms_escapeTerm f)] at hformat
    · intro h alternative halternative
      obtain ⟨candidate, hcandidate, hqualifies, rfl⟩ := mem_alternatives_iff.mp halternative
      rw [ne_eq, format_eq_nil_iff (keepsTerms_escapeTerm f)]
      exact h candidate hcandidate hqualifies
  rw [hcandidates, forall_candidates_usable_iff, usable_withoutPunctuation_iff, usable_corrected_iff]

/-- In either mode the query `++ OR --` has two terms, but without punctuation only its operator is left, and that
alternative leaves nothing. -/
theorem operator_alone_is_alternative :
    let all : Formatter := ⟨escapeTerm, true, 100000⟩
    let any : Formatter := ⟨escapeTerm, false, 100000⟩
    let query := "++ OR --".toList
    (all.format query ≠ [] ∧ "OR".toList ∈ all.alternatives Dictionary.empty.correct query ∧
        all.format "OR".toList = []) ∧
      any.format query ≠ [] ∧ "OR".toList ∈ any.alternatives Dictionary.empty.correct query ∧
        any.format "OR".toList = [] := by
  decide +kernel

end Formatter

end SourceIndex.Query
