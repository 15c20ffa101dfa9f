/-!
# Texts

A text is the list of its characters, so that a limit, a cut and a count always speak of characters.  This module
holds what the other modules share: words set apart by single spaces, trimming, and the squeezing of runs of spaces.

Key facts: trimming is the identity on a text that neither starts nor ends with a trimmed character (`trimBy_eq_self`),
and its result is such a text (`head_trimBy`, `getLast_trimBy`).
-/

namespace SourceIndex

/-- A sequence of characters. -/
abbrev Text := List Char

namespace Text

/-- The text without the characters satisfying `p` at its two ends. -/
def trimBy (p : Char → Bool) (t : Text) : Text :=
  ((t.dropWhile p).reverse.dropWhile p).reverse

/-- A blank is the space or a control character before it. -/
def isBlank (c : Char) : Bool := c ≤ ' '

/-- The text without the blanks at its two ends. -/
def trimBlanks (t : Text) : Text := trimBy isBlank t

/-- The text without the spaces at its two ends. -/
def trimSpaces (t : Text) : Text := trimBy (· == ' ') t

/-- The text with every run of spaces squeezed to one space. -/
def squeezeSpaces (t : Text) : Text :=
  t.foldr (fun c rest => if c == ' ' && rest.head? == some ' ' then rest else c :: rest) []

/-- The texts one after the other, each with a space before it. -/
def spaced (ts : List Text) : Text := ts.flatMap (' ' :: ·)

/-- The character itself if it is an ASCII letter or digit, and a space otherwise. -/
def alphanumericOrSpace (c : Char) : Char := if c.isAlphanum then c else ' '

/-! ### Trimming -/

private theorem head_dropWhile_not {p : Char → Bool} {t : Text} {c : Char}
    (h : (t.dropWhile p).head? = some c) : p c = false := by
  induction t with
  | nil => simp at h
  | cons a t ih =>
    rw [List.dropWhile_cons] at h
    split at h
    · exact ih h
    · simp_all

private theorem dropWhile_eq_self {p : Char → Bool} {t : Text}
    (h : ∀ c, t.head? = some c → p c = false) : t.dropWhile p = t := by
  cases t with
  | nil => rfl
  | cons a t => rw [List.dropWhile_cons, h a rfl]; rfl

theorem trimBy_eq_self {p : Char → Bool} {t : Text} (hhead : ∀ c, t.head? = some c → p c = false)
    (hlast : ∀ c, t.getLast? = some c → p c = false) : trimBy p t = t := by
  unfold trimBy
  rw [dropWhile_eq_self hhead, dropWhile_eq_self, List.reverse_reverse]
  intro c hc
  exact hlast c (by simpa using hc)

theorem getLast_trimBy {p : Char → Bool} {t : Text} {c : Char}
    (h : (trimBy p t).getLast? = some c) : p c = false := by
  unfold trimBy at h
  rw [List.getLast?_reverse] at h
  exact head_dropWhile_not h

theorem head_trimBy {p : Char → Bool} {t : Text} {c : Char}
    (h : (trimBy p t).head? = some c) : p c = false := by
  unfold trimBy at h
  rw [List.head?_reverse] at h
  generalize hu : t.dropWhile p = u at h
  have hsuffix : u.reverse.dropWhile p <:+ u.reverse := List.dropWhile_suffix p
  have hlast : u.reverse.getLast? = some c := by
    obtain ⟨front, hfront⟩ := hsuffix
    rw [← hfront, List.getLast?_append, h]; rfl
  rw [List.getLast?_reverse] at hlast
  subst hu
  exact head_dropWhile_not hlast

end Text

end SourceIndex
