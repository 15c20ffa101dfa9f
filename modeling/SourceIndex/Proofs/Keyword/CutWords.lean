import Mathlib.Data.List.DropRight
import SourceIndex.Keyword.CamelCase

/-!
# Words that a limit cuts

A content that is longer than the limit is read up to the limit, and the mark of the cut sticks to the letters and
digits before it.  The word that results holds an acronym, however long it is, so it contributes nothing, and no
other word changes (`expandWords_append_cutMark`).  So a cut content yields what is left of it without the run of
letters and digits before the cut, and a larger limit only adds to the end.

Key fact: what a text yields is cut wherever the text is cut at a space (`expandWords_append_space`).
-/

namespace SourceIndex.CamelCase

/-- The pieces of the compounds of a text whose words are set apart by spaces, each after a space. -/
def expandWords (t : Text) : Text := Text.spaced (((t.splitOn ' ').filter isCompound).flatMap pieces)

theorem expand_eq_expandWords (limit : Nat) (content : Text) :
    expand limit content = expandWords (Text.clip limit (content.map Text.alphanumericOrSpace)) := rfl

theorem expandWords_nil : expandWords [] = [] := rfl

theorem expandWords_append_space (t u : Text) : expandWords (t ++ ' ' :: u) = expandWords t ++ expandWords u := by
  simp [expandWords, Text.spaced, List.splitOn_append_cons_self]

/-! ### The mark of a cut -/

theorem hasAcronym_append_cutMark (word : Text) : hasAcronym (word ++ Text.cutMark) = true := by
  induction word with
  | nil => decide
  | cons a word ih =>
    obtain ⟨b, rest, hrest⟩ : ∃ b rest, word ++ Text.cutMark = b :: rest :=
      List.exists_cons_of_ne_nil (by simp [Text.cutMark])
    rw [List.cons_append, hrest, hasAcronym, ← hrest, ih, Bool.or_true]

theorem isCompound_append_cutMark (word : Text) : isCompound (word ++ Text.cutMark) = false := by
  simp [isCompound, hasAcronym_append_cutMark]

private theorem splitOn_append_cutMark {word : Text} (h : ' ' ∉ word) :
    (word ++ Text.cutMark).splitOn ' ' = [word ++ Text.cutMark] := by
  refine List.splitOn_eq_singleton ?_
  rw [List.mem_append, not_or]
  exact ⟨h, by decide⟩

private theorem expandWords_cut {word : Text} (h : ' ' ∉ word) : expandWords (word ++ Text.cutMark) = [] := by
  unfold expandWords
  rw [splitOn_append_cutMark h, List.filter_cons_of_neg (by simp [isCompound_append_cutMark])]
  rfl

/-- What is left of a text without its last word ends with a space, unless nothing is left. -/
private theorem dropWord_cases (t : Text) :
    t.rdropWhile (· != ' ') = [] ∨ ∃ front, t.rdropWhile (· != ' ') = front ++ [' '] := by
  rcases List.eq_nil_or_concat' (t.rdropWhile (· != ' ')) with hnil | ⟨front, c, hc⟩
  · exact .inl hnil
  · right
    have hlast := List.rdropWhile_last_not (· != ' ') t (by simp [hc])
    refine ⟨front, ?_⟩
    simpa [hc] using hlast

/-- The mark of a cut takes the last word away. -/
theorem expandWords_append_cutMark (t : Text) :
    expandWords (t ++ Text.cutMark) = expandWords (t.rdropWhile (· != ' ')) := by
  have hsplit : t.rdropWhile (· != ' ') ++ t.rtakeWhile (· != ' ') = t := List.rdropWhile_append_rtakeWhile
  have hword : ' ' ∉ t.rtakeWhile (· != ' ') := by
    intro h
    simpa using List.mem_rtakeWhile_imp h
  rcases dropWord_cases t with hnil | ⟨front, hfront⟩
  · rw [hnil, List.nil_append] at hsplit
    rw [hsplit] at hword
    rw [hnil, expandWords_cut hword, expandWords_nil]
  · rw [hfront, List.append_assoc, List.singleton_append] at hsplit
    calc expandWords (t ++ Text.cutMark)
        = expandWords (front ++ ' ' :: (t.rtakeWhile (· != ' ') ++ Text.cutMark)) := by
          rw [← List.cons_append, ← List.append_assoc, hsplit]
      _ = expandWords front ++ [] := by rw [expandWords_append_space, expandWords_cut hword]
      _ = expandWords (t.rdropWhile (· != ' ')) := by rw [hfront, expandWords_append_space, expandWords_nil]

/-- What comes before the last word of a text is yielded by every text that goes on from there. -/
private theorem expandWords_dropWord_prefix {t u : Text} (h : t <+: u) :
    expandWords (t.rdropWhile (· != ' ')) <+: expandWords u := by
  have hdrop : t.rdropWhile (· != ' ') <+: u := (List.rdropWhile_prefix _ t).trans h
  rcases dropWord_cases t with hnil | ⟨front, hfront⟩
  · rw [hnil, expandWords_nil]
    exact List.nil_prefix
  · rw [hfront] at hdrop ⊢
    obtain ⟨rest, rfl⟩ := hdrop
    rw [List.append_assoc, List.singleton_append, expandWords_append_space, expandWords_append_space, expandWords_nil,
      List.append_nil]
    exact List.prefix_append _ _

/-! ### Contents -/

private theorem alphanumericOrSpace_ne_space (c : Char) : (Text.alphanumericOrSpace c != ' ') = c.isAlphanum := by
  unfold Text.alphanumericOrSpace
  by_cases hc : c.isAlphanum = true
  · have hne : c ≠ ' ' := by
      rintro rfl
      exact absurd hc (by decide)
    simp [hc, hne]
  · simp [hc]

private theorem dropWord_map (content : Text) :
    (content.map Text.alphanumericOrSpace).rdropWhile (· != ' ')
      = (content.rdropWhile Char.isAlphanum).map Text.alphanumericOrSpace := by
  have hword : (fun c => c != ' ') ∘ Text.alphanumericOrSpace = Char.isAlphanum := by
    funext c
    exact alphanumericOrSpace_ne_space c
  unfold List.rdropWhile
  rw [← List.map_reverse, List.dropWhile_map, hword, List.map_reverse]

theorem expand_of_length_le {limit : Nat} {content : Text} (h : content.length ≤ limit) :
    expand limit content = expandWords (content.map Text.alphanumericOrSpace) := by
  rw [expand_eq_expandWords, Text.clip_of_length_le (by simpa using h)]

theorem expand_of_lt_length {limit : Nat} {content : Text} (h : limit < content.length) :
    expand limit content
      = expandWords (((content.map Text.alphanumericOrSpace).take limit).rdropWhile (· != ' ')) := by
  rw [expand_eq_expandWords, Text.clip_of_lt_length (by simpa using h), expandWords_append_cutMark]

/-- A text is one word, or its last word comes after a space. -/
private theorem lastWord_cases (t : Text) : ' ' ∉ t ∨ ∃ front last, t = front ++ ' ' :: last ∧ ' ' ∉ last := by
  have hsplit : t.rdropWhile (· != ' ') ++ t.rtakeWhile (· != ' ') = t := List.rdropWhile_append_rtakeWhile
  have hlast : ' ' ∉ t.rtakeWhile (· != ' ') := by
    intro h
    simpa using List.mem_rtakeWhile_imp h
  rcases dropWord_cases t with hnil | ⟨front, hfront⟩
  · rw [hnil, List.nil_append] at hsplit
    exact .inl (hsplit ▸ hlast)
  · rw [hfront, List.append_assoc] at hsplit
    exact .inr ⟨front, _, hsplit.symm, hlast⟩

/-- A compound among the words up to a limit is a word of the whole content. -/
theorem mem_splitOn_of_isCompound {limit : Nat} {content word : Text} (h : word ∈ words limit content)
    (hcompound : isCompound word = true) : word ∈ (content.map Text.alphanumericOrSpace).splitOn ' ' := by
  have hcut : ∀ last, word ≠ last ++ Text.cutMark := by
    rintro last rfl
    simp [isCompound_append_cutMark] at hcompound
  unfold words at h
  by_cases hlimit : (content.map Text.alphanumericOrSpace).length ≤ limit
  · rwa [Text.clip_of_length_le hlimit] at h
  · rw [Text.clip_of_lt_length (by omega)] at h
    have hparts := List.take_append_drop limit (content.map Text.alphanumericOrSpace)
    rcases lastWord_cases ((content.map Text.alphanumericOrSpace).take limit) with hspace | ⟨front, last, hleft, hspace⟩
    · rw [splitOn_append_cutMark hspace, List.mem_singleton] at h
      exact absurd h (hcut _)
    · rw [hleft, List.append_assoc, List.cons_append, List.splitOn_append_cons_self, splitOn_append_cutMark hspace,
        List.mem_append, List.mem_singleton] at h
      rw [← hparts, hleft, List.append_assoc, List.cons_append, List.splitOn_append_cons_self]
      exact List.mem_append_left _ (h.resolve_right (hcut last))

/-- A cut content yields what is left of it, read without a limit, once the run of letters and digits before the cut is
taken away; and what a content yields up to a limit is the beginning of what it yields up to a larger one. -/
theorem expand_limit (content : Text) :
    (∀ limit n, limit < content.length → ((content.take limit).rdropWhile Char.isAlphanum).length ≤ n →
        expand limit content = expand n ((content.take limit).rdropWhile Char.isAlphanum)) ∧
      ∀ m n, m ≤ n → expand m content <+: expand n content := by
  constructor
  · intro limit n hcut hn
    rw [expand_of_lt_length hcut, expand_of_length_le hn, ← List.map_take, dropWord_map]
  · intro m n hmn
    by_cases hm : content.length ≤ m
    · have hsame : expand m content = expand n content :=
        (expand_of_length_le hm).trans (expand_of_length_le (hm.trans hmn)).symm
      exact hsame ▸ List.prefix_rfl
    · rw [expand_of_lt_length (by omega), expand_eq_expandWords]
      exact expandWords_dropWord_prefix (Text.take_prefix_clip hmn _)

/-- A cut inside the second compound leaves the first one alone. -/
theorem expand_cut_inside_compound :
    let content := "getName(openTheFile)".toList
    16 < content.length ∧ (content.take 16).rdropWhile Char.isAlphanum = "getName(".toList ∧
      expand 16 content = expand 8 "getName(".toList ∧ expand 16 content <+: expand 20 content ∧
      expand 16 content ≠ [] ∧ expand 16 content ≠ expand 20 content := by
  intro content
  have hcut : 16 < content.length := by decide
  have hleft : (content.take 16).rdropWhile Char.isAlphanum = "getName(".toList := by decide +kernel
  have hexpand := (expand_limit content).1 16 8 hcut (by rw [hleft]; decide)
  rw [hleft] at hexpand
  exact ⟨hcut, hleft, hexpand, (expand_limit content).2 16 20 (by decide), by decide +kernel, by decide +kernel⟩

end SourceIndex.CamelCase
