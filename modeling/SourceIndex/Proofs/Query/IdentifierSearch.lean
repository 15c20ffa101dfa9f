import Mathlib.Data.List.Induction
import SourceIndex.Proofs.Keyword.CutWords
import SourceIndex.Proofs.Query.Alternatives
import SourceIndex.Proofs.Query.CandidateTokens

/-!
# Identifiers in contents and in queries

A run of letters and digits inside a content yields the same text there as on its own, as long as the limit does not
reach it (`IsRun.expand_eq`).  The words of a query that is one identifier are among its alternatives, without the
space in front of them (`camelCaseWords_mem_alternatives`).  So whoever asks for an identifier is offered its words,
and finds them next to each other in what the content yields (`identifier_words`).
-/

namespace SourceIndex

/-- A run of ASCII letters and digits between two other parts of a text, neither of which continues it. -/
structure IsRun (before run after : Text) : Prop where
  isAlphanum : ∀ c ∈ run, c.isAlphanum = true
  not_isAlphanum_before : ∀ c, before.getLast? = some c → c.isAlphanum = false
  not_isAlphanum_after : ∀ c, after.head? = some c → c.isAlphanum = false

/-! ### What a content yields -/

namespace CamelCase

theorem expandWords_cases (t : Text) : expandWords t = [] ∨ (expandWords t).head? = some ' ' := by
  unfold expandWords
  cases ((t.splitOn ' ').filter isCompound).flatMap pieces with
  | nil => exact .inl rfl
  | cons piece pieces => exact .inr rfl

/-- What a text yields goes together with what stands before and after it, if spaces set it apart. -/
theorem exists_expandWords_append (word : Text) {front back : Text} (hfront : ∀ c, front.getLast? = some c → c = ' ')
    (hback : ∀ c, back.head? = some c → c = ' ') : ∃ before after,
      expandWords (front ++ (word ++ back)) = before ++ (expandWords word ++ after) ∧
        (after = [] ∨ after.head? = some ' ') := by
  obtain ⟨after, hword, hafter⟩ : ∃ after, expandWords (word ++ back) = expandWords word ++ after ∧
      (after = [] ∨ after.head? = some ' ') := by
    cases back with
    | nil => exact ⟨[], by simp, .inl rfl⟩
    | cons c back =>
      obtain rfl := hback c rfl
      exact ⟨expandWords back, expandWords_append_space word back, expandWords_cases back⟩
  rcases List.eq_nil_or_concat' front with rfl | ⟨front, c, rfl⟩
  · exact ⟨[], after, hword, hafter⟩
  · obtain rfl := hfront c (by simp)
    refine ⟨expandWords front, after, ?_, hafter⟩
    rw [List.append_assoc, List.singleton_append, expandWords_append_space, hword]

/-- What a limit leaves of a text whose front it does not reach. -/
private theorem exists_clip_append {limit : Nat} (t u : Text) (h : (t ++ u).length ≤ limit ∨ t.length < limit) :
    ∃ u', Text.clip limit (t ++ u) = t ++ u' ∧ ∀ c, u'.head? = some c → u.head? = some c := by
  by_cases hlength : (t ++ u).length ≤ limit
  · exact ⟨u, Text.clip_of_length_le hlength, fun _ => id⟩
  · obtain ⟨n, rfl⟩ : ∃ n, limit = t.length + (n + 1) := ⟨limit - t.length - 1, by omega⟩
    refine ⟨u.take (n + 1) ++ Text.cutMark, ?_, ?_⟩
    · rw [Text.clip_of_lt_length (by omega), List.take_length_add_append, List.append_assoc]
    · cases u with
      | nil => simp at hlength
      | cons c u => simp

end CamelCase

open CamelCase

private theorem eq_space_of_getLast?_map {t : Text} (h : ∀ c, t.getLast? = some c → c.isAlphanum = false) {c : Char}
    (hc : (t.map Text.alphanumericOrSpace).getLast? = some c) : c = ' ' := by
  rw [List.getLast?_map, Option.map_eq_some_iff] at hc
  obtain ⟨d, hd, rfl⟩ := hc
  simp [Text.alphanumericOrSpace, h d hd]

private theorem eq_space_of_head?_map {t : Text} (h : ∀ c, t.head? = some c → c.isAlphanum = false) {c : Char}
    (hc : (t.map Text.alphanumericOrSpace).head? = some c) : c = ' ' := by
  rw [List.head?_map, Option.map_eq_some_iff] at hc
  obtain ⟨d, hd, rfl⟩ := hc
  simp [Text.alphanumericOrSpace, h d hd]

/-- A run yields the same inside a content as alone, if it ends before the limit or the content does not exceed it. -/
theorem IsRun.expand_eq {limit : Nat} {before run after : Text} (h : IsRun before run after)
    (hlimit : (before ++ run ++ after).length ≤ limit ∨ (before ++ run).length < limit) :
    ∃ left right, expand limit (before ++ run ++ after) = left ++ (expand limit run ++ right) ∧
      (right = [] ∨ right.head? = some ' ') := by
  have hrun : run.length ≤ limit := by
    simp only [List.length_append] at hlimit
    omega
  obtain ⟨rest, hclip, hrest⟩ := exists_clip_append (before.map Text.alphanumericOrSpace ++ run)
    (after.map Text.alphanumericOrSpace) (by simpa using hlimit)
  obtain ⟨left, right, hexpand, hright⟩ := exists_expandWords_append run
    (fun c => eq_space_of_getLast?_map h.not_isAlphanum_before)
    (fun c hc => eq_space_of_head?_map h.not_isAlphanum_after (hrest c hc))
  refine ⟨left, right, ?_, hright⟩
  rw [expand_of_length_le hrun, map_alphanumericOrSpace h.isAlphanum, expand_eq_expandWords, List.map_append,
    List.map_append, map_alphanumericOrSpace h.isAlphanum, hclip, List.append_assoc, hexpand]

/-! ### What a query offers -/

namespace Query

open Fallback

private theorem isBlank_of_isAlphanum {c : Char} (h : c.isAlphanum = true) : Text.isBlank c = false := by
  have hbounds := Text.isAlphanum_bounds h
  refine decide_eq_false fun hle => ?_
  have hblank : c.toNat ≤ 0x20 := hle
  omega

theorem space_notMem_of_isAlphanum {word : Text} (h : ∀ c ∈ word, c.isAlphanum = true) : ' ' ∉ word :=
  fun hspace => absurd (h ' ' hspace) (by decide)

theorem tidy_eq_self {word : Text} (h : ∀ c ∈ word, c.isAlphanum = true) : tidy word = word := by
  have htrim : Text.trimBlanks word = word :=
    Text.trimBy_eq_self (fun c hc => isBlank_of_isAlphanum (h c (List.mem_of_head? hc)))
      (fun c hc => isBlank_of_isAlphanum (h c (List.mem_of_getLast? hc)))
  unfold tidy
  rw [htrim, Text.squeezeSpaces_eq_self (space_notMem_of_isAlphanum h)]

/-- What a query yields has one space in front and nothing else to trim. -/
theorem expand_eq_cons {limit : Nat} {query : Text} (h : expand limit query ≠ []) :
    expand limit query = ' ' :: camelCaseWords limit query := by
  have hletters : ∀ {piece}, piece ∈ compoundPieces limit query → ∀ {c}, c ∈ piece → Text.isWhitespace c = false :=
    fun hpiece _ hc => isWhitespace_of_isAlphanum (isAlphanum_of_mem_compoundPieces hpiece _ hc)
  have hne : ∀ piece ∈ compoundPieces limit query, piece ≠ [] := fun _ => ne_nil_of_mem_compoundPieces
  rw [expand_eq_spaced] at h
  rw [camelCaseWords, expand_eq_spaced]
  cases hpieces : compoundPieces limit query with
  | nil => simp [hpieces, Text.spaced] at h
  | cons piece rest =>
    rw [hpieces] at hletters hne
    obtain ⟨first, tail, rfl⟩ := List.exists_cons_of_ne_nil (hne piece List.mem_cons_self)
    have hspaced : Text.spaced ((first :: tail) :: rest) = ' ' :: (first :: (tail ++ Text.spaced rest)) := rfl
    have hdrop : Text.trimWhitespace (' ' :: (first :: (tail ++ Text.spaced rest)))
        = Text.trimWhitespace (first :: (tail ++ Text.spaced rest)) := rfl
    rw [hspaced, hdrop, Text.trimWhitespace, Text.trimBy_eq_self]
    · rintro c hc
      obtain rfl := Option.some.inj hc
      exact hletters List.mem_cons_self List.mem_cons_self
    · intro c hc
      rw [← List.getLast?_cons_cons (a := ' '), ← hspaced] at hc
      obtain ⟨piece, hpiece, hc⟩ := Text.mem_of_getLast?_spaced hne hc
      exact hletters hpiece hc

theorem one_lt_length_compoundPieces {limit : Nat} {content : Text} (h : compoundPieces limit content ≠ []) :
    1 < (compoundPieces limit content).length := by
  unfold compoundPieces at h ⊢
  cases hcompounds : (words limit content).filter isCompound with
  | nil => simp [hcompounds] at h
  | cons word rest =>
    have hword : isCompound word = true := (List.mem_filter.mp (hcompounds ▸ List.mem_cons_self)).2
    simp only [isCompound, Bool.and_eq_true, decide_eq_true_eq] at hword
    rw [List.flatMap_cons, List.length_append]
    omega

theorem space_mem_camelCaseWords {limit : Nat} {query : Text} (h : expand limit query ≠ []) :
    ' ' ∈ camelCaseWords limit query := by
  have hexpand := expand_eq_cons h
  rw [expand_eq_spaced] at h hexpand
  have hpieces : compoundPieces limit query ≠ [] := by
    intro hnil
    simp [hnil, Text.spaced] at h
  have hlength := one_lt_length_compoundPieces hpieces
  obtain ⟨first, others, hfirst⟩ := List.exists_cons_of_ne_nil hpieces
  have hothers : others ≠ [] := by
    rintro rfl
    simp [hfirst] at hlength
  obtain ⟨second, rest, rfl⟩ := List.exists_cons_of_ne_nil hothers
  rw [hfirst] at hexpand
  have hwords : first ++ ' ' :: (second ++ Text.spaced rest) = camelCaseWords limit query := (List.cons.inj hexpand).2
  rw [← hwords]
  simp

/-- The words of a query that is one identifier are an alternative to it, because they are set apart. -/
theorem camelCaseWords_mem_alternatives (f : Formatter) (correct : Text → Text) {word : Text}
    (hword : ∀ c ∈ word, c.isAlphanum = true) (h : expand f.splitLimit word ≠ []) :
    camelCaseWords f.splitLimit word ∈ f.alternatives correct word := by
  have hspace := space_mem_camelCaseWords h
  refine Formatter.mem_alternatives_iff.mpr ⟨⟨camelCaseWords f.splitLimit word, false⟩, ?_, ?_, rfl⟩
  · simp [tidy_eq_self hword, candidates]
  · refine qualifies_iff.mpr ⟨List.ne_nil_of_mem hspace, ?_⟩
    rw [tidy_eq_self hword]
    refine beq_eq_false_iff_ne.mpr ?_
    intro hsame
    exact space_notMem_of_isAlphanum hword (hsame ▸ hspace)

/-- A run of letters and digits in a content, all of which the content holds up to its limit and one more character,
unless the limit does not cut it.  If the run yields anything, the content yields the same at some place, and there it
ends or goes on with a space.  The query that is the run has what follows the first space of it as an alternative. -/
theorem identifier_words (f : Formatter) (correct : Text → Text) {before run after : Text}
    (h : IsRun before run after)
    (hlimit : (before ++ run ++ after).length ≤ f.splitLimit ∨ (before ++ run).length < f.splitLimit)
    (hyields : expand f.splitLimit run ≠ []) :
    ∃ text left right, expand f.splitLimit run = ' ' :: text ∧
      expand f.splitLimit (before ++ run ++ after) = left ++ (' ' :: text ++ right) ∧
      (right = [] ∨ right.head? = some ' ') ∧ text ∈ f.alternatives correct run := by
  obtain ⟨left, right, hexpand, hright⟩ := h.expand_eq hlimit
  have hrun := expand_eq_cons hyields
  refine ⟨camelCaseWords f.splitLimit run, left, right, hrun, ?_, hright, ?_⟩
  · rw [← hrun]
    exact hexpand
  · exact camelCaseWords_mem_alternatives f correct h.isAlphanum hyields

/-- The limit takes the second identifier away from the content.  The first one ends before the limit, and asking for
it finds its words. -/
theorem identifier_words_before_cut :
    let f : Formatter := ⟨escapeTerm, true, 17⟩
    let before := "net.".toList
    let run := "openTheFile".toList
    let after := "(a)ReadItNow".toList
    IsRun before run after ∧ (before ++ run).length < f.splitLimit ∧ expand f.splitLimit run ≠ [] ∧
      (∃ left right, expand f.splitLimit (before ++ run ++ after) = left ++ (" open The File".toList ++ right) ∧
        (right = [] ∨ right.head? = some ' ')) ∧
      "open The File".toList ∈ f.alternatives id run := by
  intro f before run after
  have hrun : IsRun before run after := by
    refine ⟨List.all_eq_true.mp (by decide +kernel), ?_, ?_⟩
    · intro c hc
      obtain rfl := Option.some.inj hc
      rfl
    · intro c hc
      obtain rfl := Option.some.inj hc
      rfl
  have hlimit : (before ++ run).length < f.splitLimit := by decide
  have hwords : expand f.splitLimit run = " open The File".toList := by decide +kernel
  have hyields : expand f.splitLimit run ≠ [] := by
    rw [hwords]
    decide
  obtain ⟨text, left, right, hexpand, hcontent, hright, hquery⟩ := identifier_words f id hrun (.inr hlimit) hyields
  have htext : text = "open The File".toList := (List.cons.inj (hexpand.symm.trans hwords)).2
  rw [htext] at hcontent hquery
  exact ⟨hrun, hlimit, hyields, ⟨left, right, hcontent, hright⟩, hquery⟩

end Query

end SourceIndex
