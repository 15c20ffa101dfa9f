import SourceIndex.Proofs.Query.CandidateTokens

/-!
# Relaxations

A relaxation of a query replaces an operator by other ones or by nothing.  On tokens it does so wherever the operator is
neither the first nor the last of them (`relaxed`), and on a text wherever the operator stands between spaces (`text`).
Either way it changes the number of each operator only as the number of replacements says (`Replaces`), and so the
three relaxations that are tried can be told apart by what they leave (`eq_of_replaces`).
-/

namespace SourceIndex.Query

open Fallback

/-- The elements of a list between its first and its last one. -/
def interior (l : List Text) : List Text := l.tail.dropLast

theorem interior_cons_concat (first last : Text) (inner : List Text) :
    interior (first :: (inner ++ [last])) = inner := by
  simp [interior]

theorem interior_of_length_le_one {l : List Text} (h : l.length ≤ 1) : interior l = [] := by
  match l, h with
  | [], _ => rfl
  | [_], _ => rfl

/-- A list has one element at most, or a first one, a last one and others between them. -/
theorem length_le_one_or_interior (l : List Text) :
    l.length ≤ 1 ∨ ∃ first last, l = first :: (interior l ++ [last]) := by
  cases l with
  | nil => exact .inl (Nat.zero_le 1)
  | cons first rest =>
    rcases List.eq_nil_or_concat' rest with rfl | ⟨inner, last, rfl⟩
    · exact .inl le_rfl
    · exact .inr ⟨first, last, by rw [interior_cons_concat]⟩

/-- A way to relax a query: an operator and the operators, none of them the same, that take its place, written
shorter. -/
structure Relaxation where
  op : Operator
  replacement : List Operator
  fresh : op ∉ replacement
  shorter : (Text.spaced (replacement.map Operator.word)).length + 1 < (between op).length

namespace Relaxation

/-- Each `AND` becomes an `OR`. -/
def andToOr : Relaxation := ⟨.and, [.or], by decide, by decide⟩

/-- Each `AND` is left out. -/
def withoutAnd : Relaxation := ⟨.and, [], by decide, by decide⟩

/-- Each `NOT` is left out. -/
def withoutNot : Relaxation := ⟨.not, [], by decide, by decide⟩

variable (r : Relaxation)

/-- What is written in place of the operator and the spaces around it. -/
def text : Text := Text.spaced (r.replacement.map Operator.word) ++ [' ']

/-- What takes the place of a token. -/
def put (token : Text) : List Text := if token = r.op.word then r.replacement.map Operator.word else [token]

/-- The tokens with the operator replaced wherever it is neither the first nor the last of them. -/
def relaxed (ts : List Text) : List Text :=
  ts.head?.toList ++ (interior ts).flatMap r.put ++ ts.tail.getLast?.toList

variable {r}

theorem put_word : r.put r.op.word = r.replacement.map Operator.word := if_pos rfl

theorem put_of_ne {token : Text} (h : token ≠ r.op.word) : r.put token = [token] := if_neg h

private theorem word_injective {op op' : Operator} (h : op.word = op'.word) : op = op' := by
  have hop := Operator.ofWord?_word op
  rw [h, Operator.ofWord?_word] at hop
  exact (Option.some.inj hop).symm

theorem word_notMem_replacement : r.op.word ∉ r.replacement.map Operator.word := by
  intro h
  obtain ⟨op, hop, hword⟩ := List.mem_map.mp h
  exact r.fresh (word_injective hword ▸ hop)

theorem word_notMem_flatMap_put (ts : List Text) : r.op.word ∉ ts.flatMap r.put := by
  intro h
  obtain ⟨token, -, hput⟩ := List.mem_flatMap.mp h
  by_cases htoken : token = r.op.word
  · rw [htoken, put_word] at hput
    exact word_notMem_replacement hput
  · rw [put_of_ne htoken] at hput
    exact htoken (List.mem_singleton.mp hput).symm

theorem flatMap_put_of_notMem {ts : List Text} (h : r.op.word ∉ ts) : ts.flatMap r.put = ts := by
  have hput : ∀ token ∈ ts, r.put token = [token] := by
    intro token htoken
    refine put_of_ne ?_
    rintro rfl
    exact h htoken
  rw [List.flatMap_congr hput, List.flatMap_singleton']

theorem relaxed_cons_concat (first last : Text) (inner : List Text) :
    r.relaxed (first :: (inner ++ [last])) = first :: (inner.flatMap r.put ++ [last]) := by
  simp [relaxed, interior]

theorem relaxed_ne_nil {ts : List Text} (h : ts ≠ []) : r.relaxed ts ≠ [] := by
  obtain ⟨first, rest, rfl⟩ := List.exists_cons_of_ne_nil h
  simp [relaxed]

theorem relaxed_of_length_le_one {ts : List Text} (h : ts.length ≤ 1) : r.relaxed ts = ts := by
  match ts, h with
  | [], _ => rfl
  | [token], _ => rfl

theorem word_mem_interior {ts : List Text} (h : r.relaxed ts ≠ ts) : r.op.word ∈ interior ts := by
  rcases length_le_one_or_interior ts with hshort | ⟨first, last, hts⟩
  · exact absurd (relaxed_of_length_le_one hshort) h
  · by_contra hfree
    apply h
    rw [hts, relaxed_cons_concat, flatMap_put_of_notMem hfree]

theorem word_notMem_interior_relaxed (ts : List Text) : r.op.word ∉ interior (r.relaxed ts) := by
  rcases length_le_one_or_interior ts with hshort | ⟨first, last, hts⟩
  · rw [relaxed_of_length_le_one hshort, interior_of_length_le_one hshort]
    exact List.not_mem_nil
  · rw [hts, relaxed_cons_concat, interior_cons_concat]
    exact word_notMem_flatMap_put _

theorem eq_word_or_mem_relaxed {ts : List Text} {token : Text} (h : token ∈ ts) :
    token = r.op.word ∨ token ∈ r.relaxed ts := by
  rcases length_le_one_or_interior ts with hshort | ⟨first, last, hts⟩
  · rw [relaxed_of_length_le_one hshort]
    exact .inr h
  · by_cases htoken : token = r.op.word
    · exact .inl htoken
    · right
      rw [hts] at h ⊢
      rw [relaxed_cons_concat]
      simp only [List.mem_cons, List.mem_append, List.not_mem_nil, or_false] at h ⊢
      refine h.imp_right fun h => h.imp_left fun hmem => ?_
      exact List.mem_flatMap.mpr ⟨token, hmem, by rw [put_of_ne htoken]; exact List.mem_singleton_self token⟩

/-! ### Texts that are put in -/

theorem tokens_append_spaced (first : Text) (rest : List Text) :
    tokens (first ++ Text.spaced rest) = tokens first ++ rest.flatMap tokens := by
  induction rest generalizing first with
  | nil => simp [Text.spaced]
  | cons next rest ih => rw [Text.spaced_cons, tokens_append_cons isSeparator_space, ih, List.flatMap_cons]

theorem flatMap_tokens_replacement :
    (r.replacement.map Operator.word).flatMap tokens = r.replacement.map Operator.word := by
  rw [List.flatMap_map, List.flatMap_congr fun op _ => tokens_word op]
  exact List.flatMap_pure_eq_map _ _

theorem tokens_text_append (left right : Text) :
    tokens (left ++ (r.text ++ right)) = tokens left ++ r.replacement.map Operator.word ++ tokens right := by
  have hsplit : left ++ (r.text ++ right)
      = (left ++ Text.spaced (r.replacement.map Operator.word)) ++ ' ' :: right := by
    simp [text]
  rw [hsplit, tokens_append_cons isSeparator_space, tokens_append_spaced, flatMap_tokens_replacement]

/-! ### How many operators are replaced -/

/-- The tokens after so many replacements of the operator, as far as operators are concerned. -/
def Replaces (r : Relaxation) (times : Nat) (before after : List Text) : Prop :=
  ∀ op : Operator, after.count op.word + (if op = r.op then times else 0)
    = before.count op.word + times * (r.replacement.map Operator.word).count op.word

theorem Replaces.refl (ts : List Text) : r.Replaces 0 ts ts := by
  intro op
  simp

theorem Replaces.append {m n : Nat} {before after before' after' : List Text} (h : r.Replaces m before after)
    (h' : r.Replaces n before' after') : r.Replaces (m + n) (before ++ before') (after ++ after') := by
  intro op
  have hop := h op
  have hop' := h' op
  rw [List.count_append, List.count_append, Nat.add_mul]
  split at hop
  · next heq =>
    rw [if_pos heq] at hop' ⊢
    omega
  · next hne =>
    rw [if_neg hne] at hop' ⊢
    omega

theorem replaces_word : r.Replaces 1 [r.op.word] (r.replacement.map Operator.word) := by
  intro op
  by_cases hop : op = r.op
  · rw [if_pos hop, hop, List.count_singleton_self]
    omega
  · have hne : r.op.word ≠ op.word := fun h => hop (word_injective h).symm
    rw [if_neg hop, List.count_singleton, if_neg (by simpa using hne)]
    omega

theorem replaces_flatMap_put (ts : List Text) : r.Replaces (ts.count r.op.word) ts (ts.flatMap r.put) := by
  induction ts with
  | nil => exact .refl []
  | cons token ts ih =>
    rw [List.flatMap_cons, List.count_cons, Nat.add_comm]
    by_cases htoken : token = r.op.word
    · rw [if_pos (by simpa using htoken), htoken, put_word]
      exact replaces_word.append ih
    · rw [if_neg (by simpa using htoken), put_of_ne htoken]
      exact (Replaces.refl [token]).append ih

theorem replaces_relaxed (ts : List Text) : r.Replaces ((interior ts).count r.op.word) ts (r.relaxed ts) := by
  rcases length_le_one_or_interior ts with hshort | ⟨first, last, hts⟩
  · rw [relaxed_of_length_le_one hshort, interior_of_length_le_one hshort]
    exact .refl ts
  · generalize interior ts = inner at hts
    subst hts
    rw [relaxed_cons_concat]
    have hends := ((Replaces.refl (r := r) [first]).append (replaces_flatMap_put inner)).append (.refl [last])
    simpa using hends

theorem exists_replaces_replaceAll (query : Text) :
    ∃ times, r.Replaces times (tokens query) (tokens (Text.replaceAll (between r.op) r.text query)) := by
  have hpattern : between r.op ≠ [] := List.cons_ne_nil _ _
  -- the characters before an occurrence may belong to the token that it ends, so they are kept along
  suffices h : ∀ done, ∃ times, r.Replaces times (tokens (done ++ query))
      (tokens (done ++ Text.replaceAll (between r.op) r.text query)) from h []
  induction query using Text.replaceAll_induction hpattern with
  | nil =>
    intro done
    exact ⟨0, .refl _⟩
  | found rest ih =>
    intro done
    obtain ⟨times, htimes⟩ := ih []
    rw [Text.replaceAll_append hpattern, tokens_between_append, tokens_text_append]
    exact ⟨_, ((Replaces.refl (tokens done)).append replaces_word).append htimes⟩
  | other c rest hfront ih =>
    intro done
    obtain ⟨times, htimes⟩ := ih (done ++ [c])
    rw [List.append_assoc, List.append_assoc] at htimes
    rw [Text.replaceAll_cons hfront]
    exact ⟨times, htimes⟩

end Relaxation

/-- The ways to relax a query, in the order in which the relaxed queries are offered. -/
def relaxations : List Relaxation := [.andToOr, .withoutAnd, .withoutNot]

/-- Replacements that change the operators of a query in the same way come from one relaxation. -/
theorem eq_of_replaces {r r' : Relaxation} (hr : r ∈ relaxations) (hr' : r' ∈ relaxations) {m n : Nat} (hm : 0 < m)
    {before after : List Text} (h : r.Replaces m before after) (h' : r'.Replaces n before after) : r = r' := by
  have hand := h .and
  have hor := h .or
  have hnot := h .not
  have hand' := h' .and
  have hor' := h' .or
  have hnot' := h' .not
  simp only [relaxations, List.mem_cons, List.not_mem_nil, or_false] at hr hr'
  rcases hr with rfl | rfl | rfl <;> rcases hr' with rfl | rfl | rfl
  case inl.inl | inr.inl.inr.inl | inr.inr.inr.inr => rfl
  -- two different ones do not lose the same operators or do not gain the same ones
  all_goals
    simp [Relaxation.andToOr, Relaxation.withoutAnd, Relaxation.withoutNot, Operator.word]
      at hand hor hnot hand' hor' hnot'
    omega

end SourceIndex.Query
