import SourceIndex.Query.Escape

/-!
# How the backend reads an escaped term

`escapeTerm` escapes every reserved character and then takes the backslashes before parentheses and stars back, by
three replacements over text that is full of backslashes already.  None of them mistakes the second half of an
escaped backslash for the beginning of its pattern: what follows such a pair is a character that stands for itself,
and the replaced character never does, because it was escaped (`replaceAll_escapeBy`).

Key facts: `escapeTerm` is one pass over the term (`escapeTerm_eq_escapeBy`), and the backend reads the characters of
the term back, the marked ones as literals and all others bare (`glyphs?_escapeBy`).
-/

namespace SourceIndex.Query

/-! ### Escaping in one pass -/

/-- The reserved characters which a user may mean as syntax. -/
def userSyntax : List Char := ['(', ')', '*']

/-- Whether `escapeTerm` leaves a backslash before the character. -/
def needsEscape (c : Char) : Bool := isReserved c && !userSyntax.contains c

/-- The text with a backslash before every character that satisfies `p`. -/
def escapeBy (p : Char → Bool) (t : Text) : Text := t.flatMap fun c => if p c then ['\\', c] else [c]

@[simp] theorem escapeBy_nil (p : Char → Bool) : escapeBy p [] = [] := rfl

theorem escapeBy_cons_pos {p : Char → Bool} {c : Char} (h : p c = true) (t : Text) :
    escapeBy p (c :: t) = '\\' :: c :: escapeBy p t := by
  simp [escapeBy, h]

theorem escapeBy_cons_neg {p : Char → Bool} {c : Char} (h : p c = false) (t : Text) :
    escapeBy p (c :: t) = c :: escapeBy p t := by
  simp [escapeBy, h]

theorem escapeBy_append (p : Char → Bool) (t u : Text) : escapeBy p (t ++ u) = escapeBy p t ++ escapeBy p u :=
  List.flatMap_append

theorem escape_eq_escapeBy (t : Text) : escape t = escapeBy isReserved t := rfl

/-- A character that is escaped everywhere never comes first. -/
private theorem head?_escapeBy_ne {p : Char → Bool} {d : Char} (hd : p d = true) (hne : d ≠ '\\') (t : Text) :
    (escapeBy p t).head? ≠ some d := by
  cases t with
  | nil => simp
  | cons c t =>
    by_cases hc : p c = true
    · rw [escapeBy_cons_pos hc]
      simpa using Ne.symm hne
    · rw [escapeBy_cons_neg (by simpa using hc)]
      intro h
      simp only [List.head?_cons, Option.some.injEq] at h
      exact hc (h ▸ hd)

/-- Taking back the backslashes before `d` leaves those before the other characters, as long as every backslash and
every `d` of the text was escaped. -/
theorem replaceAll_escapeBy {p : Char → Bool} {d : Char} (hslash : p '\\' = true) (hd : p d = true) (hne : d ≠ '\\')
    (t : Text) : Text.replaceAll ['\\', d] [d] (escapeBy p t) = escapeBy (fun c => p c && c != d) t := by
  induction t with
  | nil => rfl
  | cons c t ih =>
    by_cases hc : p c = true
    · rw [escapeBy_cons_pos hc]
      by_cases hcd : c = d
      · subst hcd
        have hpattern : ['\\', c] ≠ [] := by simp
        rw [escapeBy_cons_neg (by simp), ← ih]
        exact Text.replaceAll_append hpattern [c] (escapeBy p t)
      · -- the pattern begins neither at the backslash nor at `c`, even if `c` is a backslash itself
        have hfront : ¬ ['\\', d] <+: '\\' :: c :: escapeBy p t := by
          simpa using Ne.symm hcd
        have hinside : ¬ ['\\', d] <+: c :: escapeBy p t := by
          intro h
          obtain ⟨-, rest, hrest⟩ := List.cons_prefix_cons.mp h
          have hhead : (escapeBy p t).head? = some d := by rw [← hrest]; rfl
          exact head?_escapeBy_ne hd hne t hhead
        rw [Text.replaceAll_cons hfront, Text.replaceAll_cons hinside, ih, escapeBy_cons_pos (by simp [hc, hcd])]
    · have hbare : c ≠ '\\' := by
        rintro rfl
        exact hc hslash
      have hfront : ¬ ['\\', d] <+: c :: escapeBy p t := by
        intro h
        exact hbare (List.cons_prefix_cons.mp h).1.symm
      rw [escapeBy_cons_neg (by simpa using hc), Text.replaceAll_cons hfront, ih,
        escapeBy_cons_neg (by simp [hc])]

/-- The three replacements leave exactly the backslashes that are needed. -/
theorem escapeTerm_eq_escapeBy (t : Text) : escapeTerm t = escapeBy needsEscape t := by
  unfold escapeTerm
  rw [escape_eq_escapeBy, replaceAll_escapeBy (by decide) (by decide) (by decide),
    replaceAll_escapeBy (by decide) (by decide) (by decide),
    replaceAll_escapeBy (by decide) (by decide) (by decide)]
  congr 1
  funext c
  rw [Bool.eq_iff_iff]
  simp [needsEscape, userSyntax, and_assoc]

theorem escapeTerm_append (t u : Text) : escapeTerm (t ++ u) = escapeTerm t ++ escapeTerm u := by
  simp only [escapeTerm_eq_escapeBy, escapeBy_append]

/-! ### The reading of the backend -/

/-- A character of a text as the backend reads it. -/
inductive Glyph where
  /-- A character that stands for itself or for syntax. -/
  | bare (c : Char)
  /-- A character that a backslash makes literal. -/
  | literal (c : Char)

namespace Glyph

/-- The character that is read. -/
def char : Glyph → Char
  | bare c => c
  | literal c => c

/-- Whether the character is read without a backslash. -/
def isBare : Glyph → Bool
  | bare _ => true
  | literal _ => false

/-- The character, read as a literal if it satisfies `p`. -/
def of (p : Char → Bool) (c : Char) : Glyph := if p c then literal c else bare c

@[simp] theorem char_of (p : Char → Bool) (c : Char) : (of p c).char = c := by
  unfold of
  split <;> rfl

@[simp] theorem isBare_of (p : Char → Bool) (c : Char) : (of p c).isBare = !p c := by
  unfold of
  split <;> simp_all [isBare]

end Glyph

/-- The characters of a text from left to right, where a backslash makes the next one literal; none if a backslash
has no character after it. -/
def glyphs? : Text → Option (List Glyph)
  | [] => some []
  | ['\\'] => none
  | '\\' :: c :: rest => (glyphs? rest).map (.literal c :: ·)
  | c :: rest => (glyphs? rest).map (.bare c :: ·)

theorem glyphs?_backslash (c : Char) (rest : Text) :
    glyphs? ('\\' :: c :: rest) = (glyphs? rest).map (.literal c :: ·) := rfl

theorem glyphs?_cons {c : Char} (h : c ≠ '\\') (rest : Text) :
    glyphs? (c :: rest) = (glyphs? rest).map (.bare c :: ·) := by
  simp [glyphs?, h]

/-- The reading of an escaped text, whatever else is escaped beside the backslashes. -/
theorem glyphs?_escapeBy {p : Char → Bool} (hslash : p '\\' = true) (t : Text) :
    glyphs? (escapeBy p t) = some (t.map (Glyph.of p)) := by
  induction t with
  | nil => rfl
  | cons c t ih =>
    by_cases hc : p c = true
    · rw [escapeBy_cons_pos hc, glyphs?_backslash, ih]
      simp [Glyph.of, hc]
    · have hbare : c ≠ '\\' := by
        rintro rfl
        exact hc hslash
      rw [escapeBy_cons_neg (by simpa using hc), glyphs?_cons hbare, ih]
      simp [Glyph.of, hc]

/-- Where no backslash is left over, `unescape` keeps the characters that are read. -/
theorem unescape_of_glyphs? {t : Text} {gs : List Glyph} (h : glyphs? t = some gs) :
    unescape t = gs.map Glyph.char := by
  fun_induction glyphs? t generalizing gs with
  | case1 =>
    obtain rfl : [] = gs := by simpa using h
    rfl
  | case2 => simp at h
  | case3 c rest ih =>
    obtain ⟨hs, hrest, rfl⟩ := Option.map_eq_some_iff.mp h
    rw [unescape_backslash, ih hrest]
    rfl
  | case4 c rest hlone hpair ih =>
    obtain ⟨hs, hrest, rfl⟩ := Option.map_eq_some_iff.mp h
    have hbare : c ≠ '\\' := by
      rintro rfl
      cases rest with
      | nil => exact hlone rfl rfl
      | cons d rest => exact hpair d rest rfl rfl
    rw [unescape_cons hbare, ih hrest]
    rfl

theorem unescape_escapeTerm (t : Text) : unescape (escapeTerm t) = t := by
  rw [escapeTerm_eq_escapeBy, unescape_of_glyphs? (glyphs?_escapeBy (by decide) t)]
  simp [Function.comp_def]

/-- Escaping is undone by the reading of the backend.  In an escaped term no backslash is left over, the characters
read are those of the term, a bare one is reserved only if the user may mean it as syntax, those which the user may
mean as syntax are all bare, and only reserved characters other than those are literal. -/
theorem escapeTerm_reading (t : Text) :
    unescape (escape t) = t ∧ unescape (escapeTerm t) = t ∧
      ∃ gs, glyphs? (escapeTerm t) = some gs ∧ gs.map Glyph.char = t ∧
        (∀ g ∈ gs, g.isBare = true → isReserved g.char = true → g.char ∈ userSyntax) ∧
        (∀ (i : Nat) (c : Char), t[i]? = some c → c ∈ userSyntax → gs[i]? = some (Glyph.bare c)) ∧
        (∀ g ∈ gs, g.isBare = false → isReserved g.char = true ∧ g.char ∉ userSyntax) := by
  refine ⟨unescape_escape t, unescape_escapeTerm t, t.map (Glyph.of needsEscape), ?_, ?_, ?_, ?_, ?_⟩
  · rw [escapeTerm_eq_escapeBy]
    exact glyphs?_escapeBy (by decide) t
  · simp [Function.comp_def]
  · intro g hg hbare hreserved
    obtain ⟨c, -, rfl⟩ := List.mem_map.mp hg
    simp only [Glyph.isBare_of, Glyph.char_of, needsEscape] at hbare hreserved ⊢
    simpa [hreserved] using hbare
  · intro i c hi hc
    have hbare : needsEscape c = false := by simp [needsEscape, hc]
    rw [List.getElem?_map, hi]
    simp [Glyph.of, hbare]
  · intro g hg hliteral
    obtain ⟨c, -, rfl⟩ := List.mem_map.mp hg
    simpa [needsEscape] using hliteral

end SourceIndex.Query
