import SourceIndex.Text.Basic

/-!
# Clipping

Content longer than a limit is read up to the limit only.  Three capitals mark the cut: a word cut in two then ends
in a run of capitals, and such a word is never taken for an identifier.
-/

namespace SourceIndex.Text

/-- Marks the place where a text was cut. -/
def cutMark : Text := ['A', 'A', 'A']

/-- The text itself if it has at most `limit` characters; else its first `limit` characters and the mark of the cut. -/
def clip (limit : Nat) (t : Text) : Text :=
  if t.length ≤ limit then t else t.take limit ++ cutMark

theorem clip_of_length_le {limit : Nat} {t : Text} (h : t.length ≤ limit) : clip limit t = t := if_pos h

theorem clip_of_lt_length {limit : Nat} {t : Text} (h : limit < t.length) :
    clip limit t = t.take limit ++ cutMark := if_neg (by omega)

theorem mem_clip {limit : Nat} {t : Text} {c : Char} (h : c ∈ clip limit t) : c ∈ t ∨ c ∈ cutMark := by
  unfold clip at h
  split at h
  · exact .inl h
  · exact (List.mem_append.mp h).imp_left List.mem_of_mem_take

theorem take_prefix_clip {m limit : Nat} (h : m ≤ limit) (t : Text) : t.take m <+: clip limit t := by
  by_cases hlimit : t.length ≤ limit
  · rw [clip_of_length_le hlimit]
    exact List.take_prefix m t
  · rw [clip_of_lt_length (by omega)]
    exact (List.take_prefix_take_left h).trans (List.prefix_append _ _)

end SourceIndex.Text
