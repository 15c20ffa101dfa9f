import Mathlib.Data.List.TakeWhile
import SourceIndex.Proofs.Query.JoinedTerms
import SourceIndex.Proofs.Text.Replacement
import SourceIndex.Query.Fallback

/-!
# The terms of a query

What is left of a query when it is formatted, in either mode, hangs on its terms alone: a query without terms leaves
nothing, and any other leaves something (`format_eq_nil_iff`).  Replacing an operator between spaces by another one or
by a space changes no term (`terms_replaceAll`).
-/

namespace SourceIndex.Query

/-- The tokens of a query that are terms. -/
def terms (query : Text) : List Text := (tokens query).filter isTerm

theorem terms_eq_nil_iff {query : Text} : terms query = [] ↔ ∀ token ∈ tokens query, isTerm token = false := by
  simp [terms]

/-! ### Queries that leave nothing -/

private theorem mem_dropWhile {α : Type} {p : α → Bool} {l : List α} {a : α} (h : a ∈ l) (ha : p a = false) :
    a ∈ l.dropWhile p := by
  rw [← List.takeWhile_append_dropWhile (p := p) (l := l)] at h
  rcases List.mem_append.mp h with htake | hdrop
  · simp [List.mem_takeWhile_imp htake] at ha
  · exact hdrop

private theorem mem_rdropWhile {α : Type} {p : α → Bool} {l : List α} {a : α} (h : a ∈ l) (ha : p a = false) :
    a ∈ l.rdropWhile p := by
  unfold List.rdropWhile
  exact List.mem_reverse.mpr (mem_dropWhile (List.mem_reverse.mpr h) ha)

namespace Formatter

variable {f : Formatter}

theorem piece_of_isTerm {token : Text} (h : isTerm token = true) : f.piece token = .term (f.term token) := by
  unfold piece
  rw [isTerm_iff.mp h]

theorem term_mem_piecesAny {query token : Text} (h : token ∈ tokens query) (hterm : isTerm token = true) :
    Piece.term (f.term token) ∈ f.piecesAny query := by
  unfold piecesAny
  rw [dropTrailingOperators_eq]
  exact mem_rdropWhile (mem_dropWhile (List.mem_map.mpr ⟨token, h, piece_of_isTerm hterm⟩) rfl) rfl

theorem piecesAny_eq_nil {query : Text} (h : ∀ token ∈ tokens query, isTerm token = false) :
    f.piecesAny query = [] := by
  unfold piecesAny
  rw [dropTrailingOperators_eq, List.rdropWhile_eq_nil_iff]
  intro piece hpiece
  obtain ⟨token, htoken, rfl⟩ := List.mem_map.mp ((List.dropWhile_sublist _).subset hpiece)
  exact isOperator_piece (h token htoken)

theorem formatAny_eq_nil_iff (hf : f.KeepsTerms) {query : Text} :
    f.formatAny query = [] ↔ ∀ token ∈ tokens query, isTerm token = false := by
  constructor
  · intro hnil token htoken
    by_contra hterm
    have hpiece := term_mem_piecesAny (f := f) htoken (by simpa using hterm)
    have htokens : f.term token ∈ tokens (f.formatAny query) := by
      rw [tokens_formatAny hf]
      exact List.mem_flatMap.mpr ⟨_, hpiece, List.mem_singleton_self _⟩
    rw [hnil, tokens_nil] at htokens
    exact List.not_mem_nil htokens
  · intro hnone
    unfold formatAny
    rw [piecesAny_eq_nil hnone]
    rfl

/-- A query leaves nothing when it is formatted exactly if it has no term. -/
theorem format_eq_nil_iff (hf : f.KeepsTerms) {query : Text} : f.format query = [] ↔ terms query = [] := by
  rw [terms_eq_nil_iff]
  unfold format
  split
  · exact formatAll_eq_nil_iff hf
  · exact formatAny_eq_nil_iff hf

end Formatter

/-! ### Operators that are replaced -/

/-- A text that sets apart what stands on its two sides and brings no term of its own. -/
def IsBreak (t : Text) : Prop := ∀ left right, terms (left ++ (t ++ right)) = terms left ++ terms right

theorem isBreak_space : IsBreak [' '] := by
  intro left right
  unfold terms
  rw [List.singleton_append, tokens_append_cons isSeparator_space, List.filter_append]

theorem tokens_between_append (op : Operator) (left right : Text) :
    tokens (left ++ (Fallback.between op ++ right)) = tokens left ++ [op.word] ++ tokens right := by
  have hsplit : left ++ (Fallback.between op ++ right) = left ++ ' ' :: (op.word ++ ' ' :: right) := by
    simp [Fallback.between]
  rw [hsplit, tokens_append_cons isSeparator_space, tokens_append_cons isSeparator_space, tokens_word,
    List.append_assoc]

theorem isBreak_between (op : Operator) : IsBreak (Fallback.between op) := by
  intro left right
  have hword : [op.word].filter isTerm = [] := by simp [isTerm_word]
  unfold terms
  rw [tokens_between_append, List.filter_append, List.filter_append, hword, List.append_nil]

/-- Replacing one break by another keeps the terms of a query, all of them and in their order. -/
theorem terms_replaceAll {pattern replacement : Text} (hne : pattern ≠ []) (hpattern : IsBreak pattern)
    (hreplacement : IsBreak replacement) (query : Text) :
    terms (Text.replaceAll pattern replacement query) = terms query := by
  -- the characters before an occurrence may belong to the token that it ends, so they are kept along
  suffices h : ∀ done, terms (done ++ Text.replaceAll pattern replacement query) = terms (done ++ query) from h []
  induction query using Text.replaceAll_induction hne with
  | nil =>
    intro done
    rfl
  | found rest ih =>
    intro done
    have hrest : terms (Text.replaceAll pattern replacement rest) = terms rest := ih []
    rw [Text.replaceAll_append hne, hreplacement, hpattern, hrest]
  | other c rest hfront ih =>
    intro done
    have hnext := ih (done ++ [c])
    rw [List.append_assoc, List.append_assoc] at hnext
    rw [Text.replaceAll_cons hfront]
    exact hnext

end SourceIndex.Query
