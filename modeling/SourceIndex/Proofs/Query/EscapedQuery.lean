import Mathlib.Data.List.DropRight
import SourceIndex.Proofs.Query.EscapeReading
import SourceIndex.Query.Format

/-!
# Escaping a query as a whole

The spaces and the operators which formatting puts around the terms hold nothing that is escaped.  So a query whose
terms are escaped one by one is the query formatted without any escaping and then escaped as a whole
(`formatAny_escapeTerm`, `formatAll_escapeTerm`), and the backend reads the latter back.
-/

namespace SourceIndex.Query

/-- The formatter with another way to make terms harmless. -/
def Formatter.withEscape (f : Formatter) (escape : Text → Text) : Formatter := { f with escape }

/-! ### Escaped spaces and operators -/

@[simp] theorem escapeTerm_nil : escapeTerm [] = [] := rfl

@[simp] theorem escapeTerm_space (t : Text) : escapeTerm (' ' :: t) = ' ' :: escapeTerm t := by
  simp only [escapeTerm_eq_escapeBy]
  exact escapeBy_cons_neg (by decide) t

@[simp] theorem escapeTerm_word (op : Operator) : escapeTerm op.word = op.word := by
  cases op <;> decide

theorem escapeTerm_flatMap {α : Type} (g : α → Text) (l : List α) :
    escapeTerm (l.flatMap g) = l.flatMap fun a => escapeTerm (g a) := by
  induction l with
  | nil => rfl
  | cons a l ih => rw [List.flatMap_cons, escapeTerm_append, ih, List.flatMap_cons]

theorem escapeTerm_intercalate (l : List Text) :
    escapeTerm ([' '].intercalate l) = [' '].intercalate (l.map escapeTerm) := by
  induction l with
  | nil => rfl
  | cons t l ih =>
    cases l with
    | nil => simp
    | cons u l =>
      rw [List.map_cons, List.map_cons, List.intercalate_cons_cons, List.intercalate_cons_cons, escapeTerm_append,
        escapeTerm_append, escapeTerm_space, escapeTerm_nil, ih, List.map_cons]

private theorem dropWhile_escapeBy {p q : Char → Bool} (hslash : q '\\' = false) (hq : ∀ c, q c = true → p c = false)
    (t : Text) : (escapeBy p t).dropWhile q = escapeBy p (t.dropWhile q) := by
  induction t with
  | nil => rfl
  | cons c t ih =>
    by_cases hc : q c = true
    · rw [escapeBy_cons_neg (hq c hc), List.dropWhile_cons_of_pos hc, List.dropWhile_cons_of_pos hc, ih]
    · rw [List.dropWhile_cons_of_neg hc]
      by_cases hp : p c = true
      · rw [escapeBy_cons_pos hp, List.dropWhile_cons_of_neg (by simp [hslash])]
      · rw [escapeBy_cons_neg (by simpa using hp), List.dropWhile_cons_of_neg hc]

private theorem rdropWhile_escapeBy {p q : Char → Bool} (hq : ∀ c, q c = true → p c = false) (t : Text) :
    (escapeBy p t).rdropWhile q = escapeBy p (t.rdropWhile q) := by
  induction t using List.reverseRecOn with
  | nil => rfl
  | append_singleton t c ih =>
    by_cases hc : q c = true
    · have hbare : escapeBy p [c] = [c] := escapeBy_cons_neg (hq c hc) []
      rw [escapeBy_append, hbare, List.rdropWhile_concat_pos _ _ _ hc, List.rdropWhile_concat_pos _ _ _ hc, ih]
    · -- escaped or not, the last character is `c`, and nothing is dropped
      obtain ⟨u, hu⟩ : ∃ u, escapeBy p [c] = u ++ [c] := by
        by_cases hp : p c = true
        · exact ⟨['\\'], escapeBy_cons_pos hp []⟩
        · exact ⟨[], escapeBy_cons_neg (by simpa using hp) []⟩
      rw [List.rdropWhile_concat_neg _ _ _ hc, escapeBy_append, hu, ← List.append_assoc,
        List.rdropWhile_concat_neg _ _ _ hc]

theorem trimSpaces_eq (t : Text) : Text.trimSpaces t = (t.dropWhile (· == ' ')).rdropWhile (· == ' ') := rfl

theorem trimSpaces_escapeTerm (t : Text) : Text.trimSpaces (escapeTerm t) = escapeTerm (Text.trimSpaces t) := by
  have hspace : ∀ c : Char, (c == ' ') = true → needsEscape c = false := by
    intro c hc
    rw [eq_of_beq hc]
    decide
  rw [escapeTerm_eq_escapeBy, escapeTerm_eq_escapeBy, trimSpaces_eq, trimSpaces_eq,
    dropWhile_escapeBy (by decide) hspace, rdropWhile_escapeBy hspace]

/-! ### Pieces with other texts -/

namespace Piece

/-- The piece with another text for its term. -/
def mapText (g : Text → Text) : Piece → Piece
  | .operator op => .operator op
  | .term text => .term (g text)
  | .joined text => .joined (g text)

@[simp] theorem isOperator_mapText (g : Text → Text) (piece : Piece) :
    (piece.mapText g).isOperator = piece.isOperator := by
  cases piece <;> rfl

@[simp] theorem needsLeft_mapText (g : Text → Text) (piece : Piece) :
    (piece.mapText g).needsLeft = piece.needsLeft := by
  cases piece <;> rfl

@[simp] theorem mapText_eq_operator_iff {g : Text → Text} {piece : Piece} {op : Operator} :
    piece.mapText g = .operator op ↔ piece = .operator op := by
  cases piece <;> simp [mapText]

theorem render_mapText_escapeTerm (piece : Piece) : (piece.mapText escapeTerm).render = escapeTerm piece.render := by
  cases piece <;> simp [mapText, render, escapeTerm_append]

end Piece

private theorem dropTrailingOperators_map (g : Text → Text) (pieces : List Piece) :
    dropTrailingOperators (pieces.map (Piece.mapText g)) = (dropTrailingOperators pieces).map (Piece.mapText g) := by
  have hop : Piece.isOperator ∘ Piece.mapText g = Piece.isOperator := by
    funext piece
    simp
  unfold dropTrailingOperators
  rw [← List.map_reverse, List.dropWhile_map, hop, List.map_reverse]

namespace Formatter

private theorem piece_withEscape (f : Formatter) (g : Text → Text) (token : Text) :
    (f.withEscape g).piece token = ((f.withEscape id).piece token).mapText g := by
  unfold piece
  split <;> rfl

private theorem push_withEscape (f : Formatter) (g : Text → Text) (done : List Piece) (token : Text) :
    (f.withEscape g).push (done.map (Piece.mapText g)) token
      = ((f.withEscape id).push done token).map (Piece.mapText g) := by
  unfold push
  cases hop : Operator.ofWord? token with
  | none =>
    cases done with
    | nil => rfl
    | cons last before =>
      simp only [List.map_cons, Piece.isOperator_mapText]
      split <;> rfl
  | some op =>
    cases done with
    | nil => rfl
    | cons last before =>
      simp only [List.map_cons, Piece.mapText_eq_operator_iff]
      split <;> rfl

private theorem foldl_push_withEscape (f : Formatter) (g : Text → Text) (ts : List Text) (done : List Piece) :
    ts.foldl (f.withEscape g).push (done.map (Piece.mapText g))
      = (ts.foldl (f.withEscape id).push done).map (Piece.mapText g) :=
  List.foldl_hom (List.map (Piece.mapText g)) (push_withEscape f g)

theorem piecesAny_withEscape (f : Formatter) (g : Text → Text) (query : Text) :
    (f.withEscape g).piecesAny query = ((f.withEscape id).piecesAny query).map (Piece.mapText g) := by
  have hleft : Piece.needsLeft ∘ Piece.mapText g = Piece.needsLeft := by
    funext piece
    simp
  have hpieces : (tokens query).map (f.withEscape g).piece
      = ((tokens query).map (f.withEscape id).piece).map (Piece.mapText g) := by
    rw [List.map_map]
    exact List.map_congr_left fun token _ => piece_withEscape f g token
  unfold piecesAny
  rw [hpieces, List.dropWhile_map, hleft, dropTrailingOperators_map]

theorem piecesAll_withEscape (f : Formatter) (g : Text → Text) (query : Text) :
    (f.withEscape g).piecesAll query = ((f.withEscape id).piecesAll query).map (Piece.mapText g) := by
  have hfold : (tokens query).foldl (f.withEscape g).push []
      = ((tokens query).foldl (f.withEscape id).push []).map (Piece.mapText g) :=
    foldl_push_withEscape f g (tokens query) []
  unfold piecesAll
  rw [hfold, ← List.map_reverse, dropTrailingOperators_map]

/-! ### Escaped queries -/

theorem formatAny_escapeTerm (f : Formatter) (query : Text) :
    (f.withEscape escapeTerm).formatAny query = escapeTerm ((f.withEscape id).formatAny query) := by
  unfold formatAny
  rw [← trimSpaces_escapeTerm, escapeTerm_flatMap, piecesAny_withEscape, List.flatMap_map]
  simp only [Piece.render_mapText_escapeTerm]

theorem formatAll_escapeTerm (f : Formatter) (query : Text) :
    (f.withEscape escapeTerm).formatAll query = escapeTerm ((f.withEscape id).formatAll query) := by
  unfold formatAll
  rw [← trimSpaces_escapeTerm, escapeTerm_intercalate, piecesAll_withEscape, List.map_map, List.map_map]
  simp only [Function.comp_def, Piece.render_mapText_escapeTerm]

/-- The backend reads a formatted query back as the one that is formatted without escaping, in both modes. -/
theorem unescape_formatted (f : Formatter) (query : Text) :
    unescape ((f.withEscape escapeTerm).formatAny query) = (f.withEscape id).formatAny query ∧
      unescape ((f.withEscape escapeTerm).formatAll query) = (f.withEscape id).formatAll query := by
  rw [formatAny_escapeTerm, formatAll_escapeTerm]
  exact ⟨unescape_escapeTerm _, unescape_escapeTerm _⟩

end Formatter

end SourceIndex.Query
