import SourceIndex.Proofs.List.FirstPlaces
import SourceIndex.Proofs.Text.Parts
import SourceIndex.Query.Fallback

/-!
# Which candidates become alternatives

The candidates are offered one after the other, and each is compared with the query and with what was kept so far.
What is kept in the end can be said at once: the candidates that qualify on their own, each text at its first place
only (`alternatives_eq`).
-/

namespace SourceIndex

namespace Query

namespace Fallback

/-- Whether a candidate is neither empty nor repeats the query. -/
def qualifies (query : Text) (candidate : Candidate) : Bool := !candidate.text.isEmpty && !candidate.repeats query

theorem qualifies_iff {query : Text} {candidate : Candidate} :
    qualifies query candidate = true ↔ candidate.text ≠ [] ∧ candidate.repeats query = false := by
  simp [qualifies]

theorem offer_eq (query : Text) (found : List Text) (candidate : Candidate) :
    offer query found candidate
      = if qualifies query candidate = true ∧ candidate.text ∉ found then found ++ [candidate.text] else found := by
  unfold offer qualifies
  grind

/-- Offering candidates one by one keeps those that qualify, each text once. -/
theorem foldl_offer (query : Text) (offered : List Candidate) :
    offered.foldl (offer query) [] = ((offered.filter (qualifies query)).map Candidate.text).eraseDups := by
  -- whether a candidate is kept depends on the ones before it, so the induction is on the end of the list
  induction offered using List.reverseRecOn with
  | nil => rfl
  | append_singleton offered candidate ih =>
    rw [List.foldl_append, List.foldl_cons, List.foldl_nil, ih, offer_eq, List.filter_append, List.map_append]
    by_cases hqualifies : qualifies query candidate = true
    · rw [List.filter_cons_of_pos hqualifies, List.filter_nil, List.map_singleton, eraseDups_concat]
      simp only [hqualifies, true_and, List.mem_eraseDups]
      split <;> simp_all
    · rw [List.filter_cons_of_neg hqualifies, List.filter_nil, List.map_nil, List.append_nil]
      simp [hqualifies]

end Fallback

open Fallback

namespace Formatter

variable {f : Formatter} {correct : Text → Text} {query : Text}

theorem alternatives_eq : f.alternatives correct query
    = (((candidates f.splitLimit correct (tidy query)).filter (qualifies (tidy query))).map Candidate.text).eraseDups :=
  foldl_offer (tidy query) _

theorem mem_alternatives_iff {text : Text} : text ∈ f.alternatives correct query ↔
    ∃ candidate ∈ candidates f.splitLimit correct (tidy query),
      qualifies (tidy query) candidate = true ∧ candidate.text = text := by
  rw [alternatives_eq, List.mem_eraseDups, List.mem_map]
  simp only [List.mem_filter, and_assoc]

/-! ### The six texts -/

private theorem isNone_ofWord? (word : Text) :
    (Operator.ofWord? word).isNone = decide (word ∉ ["AND".toList, "OR".toList, "NOT".toList]) := by
  have hword : ∀ op : Operator, op.word ∈ ["AND".toList, "OR".toList, "NOT".toList] := by
    intro op
    cases op <;> decide
  rw [Bool.eq_iff_iff, decide_eq_true_iff, Option.isNone_iff_eq_none, Option.eq_none_iff_forall_not_mem]
  constructor
  · intro hnone hmem
    simp only [List.mem_cons, List.not_mem_nil, or_false] at hmem
    rcases hmem with rfl | rfl | rfl
    · exact hnone .and (by decide)
    · exact hnone .or (by decide)
    · exact hnone .not (by decide)
  · rintro hnot op hop
    exact hnot (Operator.ofWord?_eq_some_iff.mp hop ▸ hword op)

/-- Candidates that are compared in the same way are kept by the same condition on their texts. -/
private theorem map_text_filter_qualifies (query : Text) (literal caseless : List Text) :
    ((literal.map (Candidate.mk · false) ++ caseless.map (Candidate.mk · true)).filter (qualifies query)).map
        Candidate.text
      = literal.filter (fun text => text ≠ [] ∧ text ≠ query) ++
        caseless.filter (fun text => text ≠ [] ∧ Text.lowercase text ≠ Text.lowercase query) := by
  have hliteral : (fun text => qualifies query ⟨text, false⟩) = fun text => decide (text ≠ [] ∧ text ≠ query) := by
    funext text
    rw [Bool.eq_iff_iff, qualifies_iff, decide_eq_true_iff]
    simp [Candidate.repeats]
  have hcaseless : (fun text => qualifies query ⟨text, true⟩)
      = fun text => decide (text ≠ [] ∧ Text.lowercase text ≠ Text.lowercase query) := by
    funext text
    rw [Bool.eq_iff_iff, qualifies_iff, decide_eq_true_iff]
    simp [Candidate.repeats]
  rw [List.filter_append, List.map_append, List.filter_map, List.filter_map, List.map_map, List.map_map]
  simp only [Function.comp_def, hliteral, hcaseless, List.map_id']

/-- Six texts are made of the tidy query in a fixed order: without its punctuation, with its compounds split, with its
words corrected, and with `AND` or `NOT` relaxed.  The alternatives are those of them that are not empty and differ from
the tidy query, the last four also regardless of case, each at its first place only.  So neither the tidy query nor the
empty text is an alternative, none stands twice, no other text is lost, and queries that are the same when tidy have the
same alternatives. -/
theorem alternatives_candidates (f : Formatter) (correct : Text → Text) (query : Text) :
    let collapse : Text → Text := List.destutter fun a b => ¬ (a = ' ' ∧ b = ' ')
    let trim : Text → Text := fun t => (t.dropWhile Text.isWhitespace).rdropWhile Text.isWhitespace
    let tidyOf : Text → Text := fun query => collapse ((query.dropWhile (· ≤ ' ')).rdropWhile (· ≤ ' '))
    let tidied := tidyOf query
    let words := (tidied.splitOn ' ').filter fun word => trim word ∉ ["AND".toList, "OR".toList, "NOT".toList]
    let literal : List Text :=
      [collapse (trim (tidied.map fun c => if c.isAlphanum then c else ' ')),
       trim (CamelCase.expand f.splitLimit tidied)]
    let caseless : List Text :=
      [trim (" ".toList.intercalate (words.map correct)),
       Text.replaceAll " AND ".toList " OR ".toList tidied,
       Text.replaceAll " AND ".toList " ".toList tidied,
       Text.replaceAll " NOT ".toList " ".toList tidied]
    let alternatives := f.alternatives correct query
    alternatives = (literal.filter (fun text => text ≠ [] ∧ text ≠ tidied) ++
        caseless.filter (fun text => text ≠ [] ∧ Text.lowercase text ≠ Text.lowercase tidied)).eraseDups ∧
      tidied ∉ alternatives ∧ [] ∉ alternatives ∧ alternatives.Nodup ∧
      (∀ text ∈ literal, text ≠ [] → text ≠ tidied → text ∈ alternatives) ∧
      (∀ text ∈ caseless, text ≠ [] → Text.lowercase text ≠ Text.lowercase tidied → text ∈ alternatives) ∧
      alternatives.Sublist (literal ++ caseless) ∧
      ∀ other, tidyOf other = tidied → f.alternatives correct other = alternatives := by
  intro collapse trim tidyOf tidied words literal caseless alternatives
  have hcollapse : Text.squeezeSpaces = collapse := funext Text.squeezeSpaces_eq_destutter
  have htidy : ∀ query, tidy query = tidyOf query := by
    intro query
    unfold tidy
    rw [hcollapse]
    rfl
  have hoffered : candidates f.splitLimit correct tidied
      = literal.map (Candidate.mk · false) ++ caseless.map (Candidate.mk · true) := by
    unfold candidates withoutPunctuation corrected
    rw [hcollapse]
    simp only [isNone_ofWord?]
    rfl
  have halternatives : alternatives = (literal.filter (fun text => text ≠ [] ∧ text ≠ tidied) ++
      caseless.filter (fun text => text ≠ [] ∧ Text.lowercase text ≠ Text.lowercase tidied)).eraseDups := by
    have htidied : tidy query = tidied := htidy query
    rw [← map_text_filter_qualifies, ← hoffered, ← htidied]
    exact alternatives_eq
  have hmem : ∀ text, text ∈ alternatives ↔ text ∈ literal ∧ text ≠ [] ∧ text ≠ tidied ∨
      text ∈ caseless ∧ text ≠ [] ∧ Text.lowercase text ≠ Text.lowercase tidied := by
    intro text
    rw [halternatives, List.mem_eraseDups, List.mem_append, List.mem_filter, List.mem_filter, decide_eq_true_iff,
      decide_eq_true_iff]
  refine ⟨halternatives, ?_, ?_, ?_, ?_, ?_, ?_, ?_⟩
  · intro htidied
    rcases (hmem tidied).mp htidied with ⟨-, -, hne⟩ | ⟨-, -, hne⟩
    · exact hne rfl
    · exact hne rfl
  · intro hnil
    rcases (hmem []).mp hnil with ⟨-, hne, -⟩ | ⟨-, hne, -⟩
    · exact hne rfl
    · exact hne rfl
  · rw [halternatives]
    exact nodup_eraseDups _
  · exact fun text htext hne hnew => (hmem text).mpr (.inl ⟨htext, hne, hnew⟩)
  · exact fun text htext hne hnew => (hmem text).mpr (.inr ⟨htext, hne, hnew⟩)
  · rw [halternatives]
    exact (eraseDups_sublist _).trans (List.filter_sublist.append List.filter_sublist)
  · intro other hother
    have hsame : tidy other = tidy query := by rw [htidy, hother, htidy]
    unfold alternatives
    rw [alternatives_eq, alternatives_eq, hsame]

/-- Of `" a  AND b"` the text without punctuation repeats the tidy query, the query has no compound to split, and taking
`AND` away gives what the correction gave.  A correction that changes letter case only is none, but the same query
without its punctuation stands. -/
theorem alternatives_of_two_queries :
    let f : Formatter := ⟨escapeTerm, true, 100000⟩
    f.alternatives id " a  AND b".toList = ["a b".toList, "a OR b".toList] ∧
      f.alternatives Text.lowercase "Foo Bar-Baz".toList = ["Foo Bar Baz".toList] := by
  intro f
  refine ⟨?_, ?_⟩
  · exact (alternatives_candidates f id " a  AND b".toList).1.trans (by decide +kernel)
  · exact (alternatives_candidates f Text.lowercase "Foo Bar-Baz".toList).1.trans (by decide +kernel)

end Formatter

end Query

end SourceIndex
