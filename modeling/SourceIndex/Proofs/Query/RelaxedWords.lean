import SourceIndex.Proofs.Query.Relaxation

/-!
# Operators relaxed word by word

Relaxing a query replaces an operator between spaces.  On the words of a query, which are set apart by spaces, the
replacement goes from left to right and passes over the word after one that it replaced, because the space before that
word is used up (`sweep`, `replaceAll_words`).  So it reaches the operators which the tokens of a query show between
the first and the last token exactly if each of them is a word of its own and no two of them are next to each other
(`tokens_replaceAll_iff`).
-/

namespace SourceIndex

/-! ### Counting in a flattened list -/

section CountFlatMap

variable {α : Type} [BEq α] [LawfulBEq α] {a : α} {g : α → List α}

private theorem count_le_count_flatMap (hg : g a = [a]) (l : List α) : l.count a ≤ (l.flatMap g).count a := by
  induction l with
  | nil => simp
  | cons b l ih =>
    rw [List.flatMap_cons, List.count_append, List.count_cons]
    by_cases hb : b = a
    · rw [hb, hg, List.count_singleton_self, if_pos (beq_self_eq_true a)]
      omega
    · rw [if_neg (by simpa using hb)]
      omega

/-- The occurrences of `a` in a flattened list are those in the list exactly if no other element holds one. -/
theorem count_flatMap_eq_iff (hg : g a = [a]) (l : List α) :
    (l.flatMap g).count a = l.count a ↔ ∀ b ∈ l, a ∈ g b → b = a := by
  induction l with
  | nil => simp
  | cons b l ih =>
    have hle := count_le_count_flatMap hg l
    rw [List.flatMap_cons, List.count_append, List.count_cons, List.forall_mem_cons, ← ih]
    by_cases hb : b = a
    · rw [hb, hg, List.count_singleton_self, if_pos (beq_self_eq_true a)]
      simp only [implies_true, true_and]
      omega
    · rw [if_neg (by simpa using hb)]
      by_cases hmem : a ∈ g b
      · have hpos := List.count_pos_iff.mpr hmem
        simp only [hmem, hb, forall_const, false_and, iff_false]
        omega
      · rw [List.count_eq_zero_of_not_mem hmem]
        simp [hmem]

end CountFlatMap

namespace Query

open Fallback

namespace Relaxation

/-- The words between the first and the last one of a query once the operator is replaced from left to right, where the
word after a replaced one is left alone. -/
def sweep (r : Relaxation) : List Text → List Text
  | [] => []
  | [word] => r.put word
  | word :: next :: rest =>
    if word = r.op.word then r.replacement.map Operator.word ++ next :: r.sweep rest
    else word :: r.sweep (next :: rest)

variable {r : Relaxation}

/-! ### The words of a relaxed text -/

private theorem space_notMem_word (op : Operator) : ' ' ∉ op.word := by cases op <;> decide

theorem replaceAll_append_of_space_notMem (replacement : Text) {word : Text} (h : ' ' ∉ word) (rest : Text) :
    Text.replaceAll (between r.op) replacement (word ++ rest)
      = word ++ Text.replaceAll (between r.op) replacement rest :=
  Text.replaceAll_append_of_notMem h rest

private theorem takeWhile_word {word rest : Text} (hword : ' ' ∉ word)
    (hrest : ∀ c, rest.head? = some c → c = ' ') : (word ++ rest).takeWhile (· != ' ') = word := by
  have hinside : ∀ c ∈ word, (c != ' ') = true := by
    intro c hc
    rw [bne_iff_ne]
    rintro rfl
    exact hword hc
  have hnone : rest.takeWhile (· != ' ') = [] := by
    cases rest with
    | nil => rfl
    | cons c rest =>
      rw [hrest c rfl]
      rfl
  rw [List.takeWhile_append_of_pos hinside, hnone, List.append_nil]

/-- The operator stands between spaces at the front of a text of words only if it is the first word. -/
private theorem eq_word_of_between_front {word rest : Text} (hword : ' ' ∉ word)
    (hrest : ∀ c, rest.head? = some c → c = ' ') (h : between r.op <+: ' ' :: (word ++ rest)) : word = r.op.word := by
  obtain ⟨tail, htail⟩ := h
  have hsame : r.op.word ++ ' ' :: tail = word ++ rest := by simpa [between] using htail
  have htake := congrArg (List.takeWhile (· != ' ')) hsame
  rw [takeWhile_word (space_notMem_word r.op) (by simp), takeWhile_word hword hrest] at htake
  exact htake.symm

private theorem head_spaced {words : List Text} {c : Char} (h : (Text.spaced words).head? = some c) : c = ' ' := by
  cases words with
  | nil => simp [Text.spaced] at h
  | cons word words => simpa [Text.spaced] using h.symm

private theorem replaceAll_spaced_cons_of_ne {word : Text} (hword : ' ' ∉ word) (hne : word ≠ r.op.word)
    (replacement : Text) (rest : List Text) :
    Text.replaceAll (between r.op) replacement (Text.spaced (word :: rest))
      = ' ' :: (word ++ Text.replaceAll (between r.op) replacement (Text.spaced rest)) := by
  have hfront : ¬ between r.op <+: ' ' :: (word ++ Text.spaced rest) :=
    fun h => hne (eq_word_of_between_front hword (fun c => head_spaced) h)
  rw [Text.spaced_cons, Text.replaceAll_cons hfront, replaceAll_append_of_space_notMem _ hword]

private theorem replaceAll_spaced_singleton {last : Text} (h : ' ' ∉ last) (replacement : Text) :
    Text.replaceAll (between r.op) replacement (Text.spaced [last]) = Text.spaced [last] := by
  have hfree : ¬ between r.op <:+: Text.spaced [last] := by
    intro hinfix
    have hcount := hinfix.sublist.count_le ' '
    have hspaces : 2 ≤ (between r.op).count ' ' := by
      cases r.op <;> decide
    rw [Text.spaced_cons, List.count_cons_self, Text.spaced, List.flatMap_nil, List.append_nil,
      List.count_eq_zero_of_not_mem h] at hcount
    omega
  exact Text.replaceAll_eq_self hfree replacement

private theorem replaceAll_spaced_word_cons (next : Text) (hnext : ' ' ∉ next) (rest : List Text) :
    Text.replaceAll (between r.op) r.text (Text.spaced (r.op.word :: next :: rest))
      = Text.spaced (r.replacement.map Operator.word ++ [next])
        ++ Text.replaceAll (between r.op) r.text (Text.spaced rest) := by
  have hfront : Text.spaced (r.op.word :: next :: rest) = between r.op ++ (next ++ Text.spaced rest) := by
    simp [Text.spaced, between]
  have hpattern : between r.op ≠ [] := List.cons_ne_nil _ _
  rw [hfront, Text.replaceAll_append hpattern, replaceAll_append_of_space_notMem _ hnext]
  simp [text, Text.spaced]

/-- Replacing the operator in a text of words after spaces sweeps over all words but the last. -/
private theorem replaceAll_spaced {inner : List Text} {last : Text} (hinner : ∀ word ∈ inner, ' ' ∉ word)
    (hlast : ' ' ∉ last) :
    Text.replaceAll (between r.op) r.text (Text.spaced (inner ++ [last])) = Text.spaced (r.sweep inner ++ [last]) := by
  fun_induction sweep r inner with
  | case1 => exact replaceAll_spaced_singleton hlast r.text
  | case2 word =>
    by_cases hword : word = r.op.word
    · rw [hword, put_word, List.singleton_append, replaceAll_spaced_word_cons last hlast]
      exact List.append_nil _
    · rw [put_of_ne hword, List.singleton_append, replaceAll_spaced_cons_of_ne (hinner word (by simp)) hword,
        replaceAll_spaced_singleton hlast, Text.spaced_cons word]
  | case3 next rest ih =>
    have hrest := ih fun word hword => hinner word (by simp [hword])
    rw [List.cons_append, List.cons_append, replaceAll_spaced_word_cons next (hinner next (by simp)), hrest]
    simp [Text.spaced]
  | case4 word next rest hword ih =>
    have hrest := ih fun other hother => hinner other (List.mem_cons_of_mem word hother)
    rw [List.cons_append, replaceAll_spaced_cons_of_ne (hinner word (by simp)) hword, hrest, List.cons_append,
      Text.spaced_cons]

private theorem eq_append_spaced {query first : Text} {rest : List Text} (hwords : query.splitOn ' ' = first :: rest) :
    query = first ++ Text.spaced rest := by
  rw [← Text.intercalate_cons_eq, ← hwords, List.intercalate_splitOn]

private theorem space_notMem_of_mem_splitOn {query word : Text} (h : word ∈ query.splitOn ' ') : ' ' ∉ word :=
  fun hspace => (Text.mem_of_mem_splitOn h hspace).2 rfl

theorem replaceAll_words {query first last : Text} {inner : List Text}
    (hwords : query.splitOn ' ' = first :: (inner ++ [last])) :
    Text.replaceAll (between r.op) r.text query = first ++ Text.spaced (r.sweep inner ++ [last]) := by
  have hfree : ∀ word ∈ first :: (inner ++ [last]), ' ' ∉ word :=
    fun word hword => space_notMem_of_mem_splitOn (hwords ▸ hword)
  rw [eq_append_spaced hwords, replaceAll_append_of_space_notMem _ (hfree first List.mem_cons_self), replaceAll_spaced]
  · exact fun word hword => hfree word (by simp [hword])
  · exact hfree last (by simp)

/-- A query of one word has no operator between spaces. -/
private theorem replaceAll_of_length_le_one {query : Text} (h : (query.splitOn ' ').length ≤ 1) :
    Text.replaceAll (between r.op) r.text query = query := by
  obtain ⟨word, rest, hwords⟩ := List.exists_cons_of_ne_nil (List.splitOn_ne_nil ' ' query)
  have hspace : ' ' ∉ word := space_notMem_of_mem_splitOn (hwords ▸ List.mem_cons_self)
  have hrest : rest = [] := by simpa [hwords] using h
  rw [eq_append_spaced hwords, hrest, replaceAll_append_of_space_notMem _ hspace]
  rfl

/-! ### Operators that are reached -/

private theorem pair_infix_cons_cons {word a b : Text} {l : List Text} :
    [word, word] <:+: a :: b :: l ↔ (word = a ∧ word = b) ∨ [word, word] <:+: b :: l := by
  rw [List.infix_cons_iff, List.cons_prefix_cons, List.cons_prefix_cons]
  simp

private theorem not_pair_infix_singleton (word a : Text) : ¬ [word, word] <:+: [a] := fun h => by
  simpa using h.length_le

/-- Where the sweep leaves no operator behind, each one was a word of its own and none stood next to another. -/
private theorem apart_of_sweep {inner : List Text} (h : r.op.word ∉ (r.sweep inner).flatMap tokens) :
    ¬ [r.op.word, r.op.word] <:+: inner ∧ ∀ word ∈ inner, r.op.word ∈ tokens word → word = r.op.word := by
  fun_induction sweep r inner with
  | case1 => simp
  | case2 word =>
    refine ⟨not_pair_infix_singleton _ _, ?_⟩
    rw [List.forall_mem_singleton]
    intro htoken
    by_contra hne
    rw [put_of_ne hne] at h
    exact h (by simpa using htoken)
  | case3 next rest ih =>
    rw [List.flatMap_append, List.flatMap_cons, List.mem_append, List.mem_append, not_or, not_or] at h
    obtain ⟨-, hnext, hrest⟩ := h
    obtain ⟨hpair, halone⟩ := ih hrest
    have hne : r.op.word ≠ next := by
      rintro rfl
      exact hnext (by rw [tokens_word]; exact List.mem_singleton_self _)
    constructor
    · rw [pair_infix_cons_cons, List.infix_cons_iff, not_or, not_or, List.cons_prefix_cons]
      exact ⟨fun hboth => hne hboth.2, fun hfirst => hne hfirst.1, hpair⟩
    · rw [List.forall_mem_cons, List.forall_mem_cons]
      exact ⟨fun _ => rfl, fun htoken => absurd htoken hnext, halone⟩
  | case4 word next rest hword ih =>
    rw [List.flatMap_cons, List.mem_append, not_or] at h
    obtain ⟨hpair, halone⟩ := ih h.2
    constructor
    · rw [pair_infix_cons_cons, not_or]
      exact ⟨fun hboth => hword hboth.1.symm, hpair⟩
    · rw [List.forall_mem_cons]
      exact ⟨fun htoken => absurd htoken h.1, halone⟩

private theorem sweep_of_apart {inner : List Text} (h : ¬ [r.op.word, r.op.word] <:+: inner) :
    r.sweep inner = inner.flatMap r.put := by
  fun_induction sweep r inner with
  | case1 => rfl
  | case2 word => rw [List.flatMap_singleton]
  | case3 next rest ih =>
    rw [pair_infix_cons_cons, List.infix_cons_iff, not_or, not_or] at h
    have hnext : next ≠ r.op.word := fun hnext => h.1 ⟨rfl, hnext.symm⟩
    rw [ih h.2.2, List.flatMap_cons, List.flatMap_cons, put_word, put_of_ne hnext, List.singleton_append]
  | case4 word next rest hword ih =>
    rw [pair_infix_cons_cons, not_or] at h
    have hcons : (word :: next :: rest).flatMap r.put = r.put word ++ (next :: rest).flatMap r.put := List.flatMap_cons
    rw [ih h.2, hcons, put_of_ne hword, List.singleton_append]

/-- Replacing words and then reading tokens is reading tokens and then replacing them, where each operator among the
tokens is a word of its own. -/
private theorem flatMap_put_tokens {inner : List Text}
    (h : ∀ word ∈ inner, r.op.word ∈ tokens word → word = r.op.word) :
    (inner.flatMap r.put).flatMap tokens = (inner.flatMap tokens).flatMap r.put := by
  rw [List.flatMap_assoc, List.flatMap_assoc]
  refine List.flatMap_congr fun word hmem => ?_
  by_cases hword : word = r.op.word
  · rw [hword, put_word, flatMap_tokens_replacement, tokens_word, List.flatMap_singleton, put_word]
  · have hfree : r.op.word ∉ tokens word := fun htoken => hword (h word hmem htoken)
    rw [put_of_ne hword, List.flatMap_singleton, flatMap_put_of_notMem hfree]

/-- The sweep over the inner words, with the tokens of the outer words beside it, replaces every operator exactly if it
is nowhere among those, a word of its own wherever it is among these, and never next to itself. -/
private theorem sweep_eq_flatMap_put_iff {fs ls inner : List Text} :
    fs ++ (r.sweep inner).flatMap tokens ++ ls = (fs ++ inner.flatMap tokens ++ ls).flatMap r.put ↔
      (fs ++ inner.flatMap tokens ++ ls).count r.op.word = inner.count r.op.word ∧
        ¬ [r.op.word, r.op.word] <:+: inner := by
  rw [List.count_append, List.count_append]
  constructor
  · intro heq
    have hfree : r.op.word ∉ fs ++ (r.sweep inner).flatMap tokens ++ ls := heq ▸ word_notMem_flatMap_put _
    rw [List.mem_append, List.mem_append, not_or, not_or] at hfree
    obtain ⟨⟨hfs, hsweep⟩, hls⟩ := hfree
    obtain ⟨hapart, halone⟩ := apart_of_sweep hsweep
    refine ⟨?_, hapart⟩
    rw [List.count_eq_zero_of_not_mem hfs, List.count_eq_zero_of_not_mem hls,
      (count_flatMap_eq_iff (tokens_word r.op) inner).mpr halone]
    omega
  · rintro ⟨hcount, hapart⟩
    have hle := count_le_count_flatMap (tokens_word r.op) inner
    have hfs : r.op.word ∉ fs := List.count_eq_zero.mp (by omega)
    have hls : r.op.word ∉ ls := List.count_eq_zero.mp (by omega)
    have halone := (count_flatMap_eq_iff (tokens_word r.op) inner).mp (by omega)
    rw [List.flatMap_append, List.flatMap_append, flatMap_put_of_notMem hfs, flatMap_put_of_notMem hls,
      sweep_of_apart hapart, flatMap_put_tokens halone]

/-- Whether a replacement in a query reaches all operators that its tokens show between the first and the last: each is
a word of its own, and no two of them are next to each other. -/
structure Reaches (r : Relaxation) (query : Text) : Prop where
  alone : (interior (tokens query)).count r.op.word = (interior (query.splitOn ' ')).count r.op.word
  apart : ¬ [r.op.word, r.op.word] <:+: interior (query.splitOn ' ')

private theorem tokens_first_ne_nil {first rest : Text}
    (h : ∀ c, (first ++ ' ' :: rest).head? = some c → isSeparator c = false) : tokens first ≠ [] := by
  rw [ne_eq, tokens_eq_nil_iff]
  intro hsep
  cases first with
  | nil => exact absurd (h ' ' rfl) (by decide)
  | cons c first =>
    have hc := h c rfl
    simp [hsep c List.mem_cons_self] at hc

private theorem tokens_last_ne_nil {front last : Text}
    (h : ∀ c, (front ++ ' ' :: last).getLast? = some c → isSeparator c = false) : tokens last ≠ [] := by
  rw [ne_eq, tokens_eq_nil_iff]
  intro hsep
  rcases List.eq_nil_or_concat' last with rfl | ⟨last, c, rfl⟩
  · exact absurd (h ' ' (by simp)) (by decide)
  · have hconcat : front ++ ' ' :: (last ++ [c]) = (front ++ ' ' :: last) ++ [c] := by simp
    rw [hconcat] at h
    have hc := h c List.getLast?_concat
    simp [hsep c (by simp)] at hc

/-- The words of a query show its first and its last token in the first and the last word. -/
private theorem exists_tokens_of_words {query first last : Text} {inner : List Text}
    (hhead : ∀ c, query.head? = some c → isSeparator c = false)
    (hlast : ∀ c, query.getLast? = some c → isSeparator c = false)
    (hwords : query.splitOn ' ' = first :: (inner ++ [last])) :
    ∃ f fs ls l, tokens first = f :: fs ∧ tokens last = ls ++ [l] ∧
      tokens query = f :: (fs ++ inner.flatMap tokens ++ ls ++ [l]) := by
  have hquery := eq_append_spaced hwords
  have hspaced : Text.spaced (inner ++ [last]) = Text.spaced inner ++ ' ' :: last := by
    simp [Text.spaced]
  have hfirst : tokens first ≠ [] := by
    obtain ⟨rest, hrest⟩ : ∃ rest, query = first ++ ' ' :: rest := by
      cases inner with
      | nil => exact ⟨_, hquery⟩
      | cons next inner => exact ⟨_, hquery⟩
    exact tokens_first_ne_nil (hrest ▸ hhead)
  have hlast' : tokens last ≠ [] := by
    rw [hquery, hspaced, ← List.append_assoc] at hlast
    exact tokens_last_ne_nil hlast
  obtain ⟨f, fs, hf⟩ := List.exists_cons_of_ne_nil hfirst
  obtain ⟨ls, l, hl⟩ := (List.eq_nil_or_concat' (tokens last)).resolve_left hlast'
  refine ⟨f, fs, ls, l, hf, hl, ?_⟩
  rw [hquery, tokens_append_spaced, List.flatMap_append, List.flatMap_singleton, hf, hl]
  simp

/-- A query without separators at its ends has the tokens of its relaxed form after the replacement exactly if the
replacement reaches all operators. -/
theorem tokens_replaceAll_iff {query : Text} (hhead : ∀ c, query.head? = some c → isSeparator c = false)
    (hlast : ∀ c, query.getLast? = some c → isSeparator c = false) (hop : r.op.word ∈ interior (tokens query)) :
    tokens (Text.replaceAll (between r.op) r.text query) = r.relaxed (tokens query) ↔ r.Reaches query := by
  rcases length_le_one_or_interior (query.splitOn ' ') with hshort | ⟨first, last, hwords⟩
  · have hsame : Text.replaceAll (between r.op) r.text query = query := replaceAll_of_length_le_one hshort
    have hnone : interior (query.splitOn ' ') = [] := interior_of_length_le_one hshort
    refine iff_of_false ?_ ?_
    · intro heq
      rw [hsame] at heq
      exact word_notMem_interior_relaxed (tokens query) (heq ▸ hop)
    · rintro ⟨halone, -⟩
      rw [hnone, List.count_nil] at halone
      exact List.count_eq_zero.mp halone hop
  · obtain ⟨f, fs, ls, l, hf, hl, htokens⟩ := exists_tokens_of_words hhead hlast hwords
    have hinterior : interior (tokens query) = fs ++ (interior (query.splitOn ' ')).flatMap tokens ++ ls := by
      rw [htokens, interior_cons_concat]
    have hreplaced : tokens (Text.replaceAll (between r.op) r.text query)
        = f :: (fs ++ (r.sweep (interior (query.splitOn ' '))).flatMap tokens ++ ls ++ [l]) := by
      rw [replaceAll_words hwords, tokens_append_spaced, List.flatMap_append, List.flatMap_singleton, hf, hl]
      simp
    have hwanted : r.relaxed (tokens query) = f :: ((interior (tokens query)).flatMap r.put ++ [l]) := by
      rw [hinterior, htokens, relaxed_cons_concat]
    rw [hreplaced, hwanted, hinterior, List.cons_inj_right, List.append_left_inj, sweep_eq_flatMap_put_iff, ← hinterior]
    exact ⟨fun h => ⟨h.1, h.2⟩, fun h => ⟨h.alone, h.apart⟩⟩

end Relaxation

end Query

end SourceIndex
