import SourceIndex.Text.Basic

/-!
# Replacing a pattern

`replaceAll` replaces the occurrences of a non-empty pattern from left to right; an occurrence that overlaps one
already replaced is passed over.  Its two equations are `replaceAll_append` (the pattern stands at the front) and
`replaceAll_cons` (it does not).
-/

namespace SourceIndex.Text

/-- Replaces the occurrences of `pattern` after the first `skip` characters, which are dropped. -/
def replaceFrom (pattern replacement : Text) : Nat → Text → Text
  | _, [] => []
  | skip + 1, _ :: rest => replaceFrom pattern replacement skip rest
  | 0, c :: rest =>
    if pattern.isPrefixOf (c :: rest) then
      replacement ++ replaceFrom pattern replacement (pattern.length - 1) rest
    else c :: replaceFrom pattern replacement 0 rest

/-- The text with every occurrence of `pattern`, taken from left to right, replaced. -/
def replaceAll (pattern replacement t : Text) : Text := replaceFrom pattern replacement 0 t

private theorem replaceFrom_eq_drop (pattern replacement : Text) (skip : Nat) (t : Text) :
    replaceFrom pattern replacement skip t = replaceFrom pattern replacement 0 (t.drop skip) := by
  induction t generalizing skip with
  | nil => simp [replaceFrom]
  | cons c t ih => cases skip <;> simp [replaceFrom, ih]

@[simp] theorem replaceAll_nil (pattern replacement : Text) : replaceAll pattern replacement [] = [] := rfl

theorem replaceAll_append {pattern : Text} (h : pattern ≠ []) (replacement rest : Text) :
    replaceAll pattern replacement (pattern ++ rest)
      = replacement ++ replaceAll pattern replacement rest := by
  obtain ⟨c, p, rfl⟩ := List.exists_cons_of_ne_nil h
  have hpre : (c :: p).isPrefixOf (c :: (p ++ rest)) = true :=
    List.isPrefixOf_iff_prefix.mpr (List.prefix_append (c :: p) rest)
  simp only [replaceAll, List.cons_append, replaceFrom, hpre, if_true]
  rw [replaceFrom_eq_drop]
  simp

theorem replaceAll_cons {pattern : Text} {c : Char} {rest : Text}
    (h : ¬ pattern <+: c :: rest) (replacement : Text) :
    replaceAll pattern replacement (c :: rest) = c :: replaceAll pattern replacement rest := by
  have hpre : pattern.isPrefixOf (c :: rest) = false := by
    rw [← Bool.not_eq_true, List.isPrefixOf_iff_prefix]; exact h
  simp [replaceAll, replaceFrom, hpre]

end SourceIndex.Text
