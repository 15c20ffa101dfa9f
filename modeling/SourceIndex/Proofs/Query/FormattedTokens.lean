import SourceIndex.Proofs.Query.EscapedQuery
import SourceIndex.Proofs.Text.LowercaseLetters

/-!
# The tokens of a formatted query

Formatting pads every piece with spaces, so that the tokens of a formatted query are those of its pieces one after
the other (`tokens_formatAny`, `tokens_formatAll`).  This needs terms that are still terms in the formatted query
(`KeepsTerms`): a lowercased and escaped term holds no separator and no capital of ASCII, and so is no operator
(`keepsTerms_escapeTerm`).
-/

namespace SourceIndex.Query

/-! ### Separators at the ends -/

theorem isSeparator_space : isSeparator ' ' = true := by decide

/-- No separator comes after the space. -/
theorem toNat_le_of_isSeparator {c : Char} (h : isSeparator c = true) : c.toNat ≤ 0x20 := by
  simp only [isSeparator, List.contains_eq_mem, List.mem_cons, List.not_mem_nil, or_false, decide_eq_true_eq] at h
  rcases h with rfl | rfl | rfl | rfl | rfl | rfl <;> decide

theorem tokens_nil : tokens [] = [] := rfl

theorem tokens_cons {c : Char} (hc : isSeparator c = true) (t : Text) : tokens (c :: t) = tokens t :=
  tokens_append_cons hc [] t

theorem tokens_concat {c : Char} (hc : isSeparator c = true) (t : Text) : tokens (t ++ [c]) = tokens t := by
  rw [tokens_append_cons hc, tokens_nil, List.append_nil]

private theorem tokens_dropWhile {p : Char → Bool} {t : Text} (hp : ∀ c ∈ t, p c = true → isSeparator c = true) :
    tokens (t.dropWhile p) = tokens t := by
  induction t with
  | nil => rfl
  | cons c t ih =>
    obtain ⟨hc, ht⟩ := List.forall_mem_cons.mp hp
    by_cases hdrop : p c = true
    · rw [List.dropWhile_cons_of_pos hdrop, ih ht, tokens_cons (hc hdrop)]
    · rw [List.dropWhile_cons_of_neg hdrop]

private theorem tokens_rdropWhile {p : Char → Bool} {t : Text} (hp : ∀ c ∈ t, p c = true → isSeparator c = true) :
    tokens (t.rdropWhile p) = tokens t := by
  induction t using List.reverseRecOn with
  | nil => rfl
  | append_singleton t c ih =>
    obtain ⟨ht, hc⟩ := List.forall_mem_append.mp hp
    by_cases hdrop : p c = true
    · rw [List.rdropWhile_concat_pos _ _ _ hdrop, ih ht, tokens_concat (List.forall_mem_singleton.mp hc hdrop)]
    · rw [List.rdropWhile_concat_neg _ _ _ hdrop]

/-- Trimming separators away changes no token. -/
theorem tokens_trimBy {p : Char → Bool} {t : Text} (hp : ∀ c ∈ t, p c = true → isSeparator c = true) :
    tokens (Text.trimBy p t) = tokens t := by
  have htrim : Text.trimBy p t = (t.dropWhile p).rdropWhile p := rfl
  have hdrop : ∀ c ∈ t.dropWhile p, p c = true → isSeparator c = true :=
    fun c hc => hp c ((List.dropWhile_sublist p).subset hc)
  rw [htrim, tokens_rdropWhile hdrop, tokens_dropWhile hp]

theorem tokens_trimSpaces (t : Text) : tokens (Text.trimSpaces t) = tokens t := by
  refine tokens_trimBy ?_
  intro c _ hc
  rw [eq_of_beq hc]
  exact isSeparator_space

/-! ### Terms -/

/-- Whether a token is a term. -/
def isTerm (token : Text) : Bool := (Operator.ofWord? token).isNone

theorem isTerm_eq_false_iff {token : Text} : isTerm token = false ↔ ∃ op : Operator, token = op.word := by
  simp only [isTerm, Option.isNone_eq_false_iff, Option.isSome_iff_exists, Operator.ofWord?_eq_some_iff]

theorem isTerm_word (op : Operator) : isTerm op.word = false :=
  isTerm_eq_false_iff.mpr ⟨op, rfl⟩

theorem isTerm_iff {token : Text} : isTerm token = true ↔ Operator.ofWord? token = none :=
  Option.isNone_iff_eq_none

/-- A text that is read as one term wherever it stands between separators. -/
structure ReadsAsTerm (text : Text) : Prop where
  tokens_eq : tokens text = [text]
  isTerm_eq : isTerm text = true

theorem readsAsTerm_of_mem_tokens {query token : Text} (h : token ∈ tokens query) (hterm : isTerm token = true) :
    ReadsAsTerm token :=
  ⟨tokens_of_forall (not_isSeparator_of_mem_tokens h) (ne_nil_of_mem_tokens h), hterm⟩

theorem ReadsAsTerm.ne_nil {text : Text} (h : ReadsAsTerm text) : text ≠ [] := by
  rintro rfl
  exact absurd h.tokens_eq (by decide)

theorem ReadsAsTerm.not_isSeparator {text : Text} (h : ReadsAsTerm text) : ∀ c ∈ text, isSeparator c = false := by
  have hmem : text ∈ tokens text := by
    rw [h.tokens_eq]
    exact List.mem_singleton_self text
  exact not_isSeparator_of_mem_tokens hmem

private theorem mem_escapeBy {p : Char → Bool} {t : Text} {c : Char} (h : c ∈ escapeBy p t) : c = '\\' ∨ c ∈ t := by
  obtain ⟨d, hd, hc⟩ := List.mem_flatMap.mp h
  split at hc
  · rcases List.mem_cons.mp hc with hc | hc
    · exact .inl hc
    · exact .inr (List.mem_singleton.mp hc ▸ hd)
  · exact .inr (List.mem_singleton.mp hc ▸ hd)

private theorem escapeTerm_ne_nil {t : Text} (h : t ≠ []) : escapeTerm t ≠ [] := by
  intro hnil
  have hread := unescape_escapeTerm t
  rw [hnil] at hread
  exact h hread.symm

namespace Formatter

/-- The formatter writes every term as a text that is read as a term again. -/
def KeepsTerms (f : Formatter) : Prop := ∀ token, ReadsAsTerm token → ReadsAsTerm (f.term token)

/-- A character of an escaped term is a backslash, a character of the term that is no capital, or one from `a` on. -/
private theorem mem_term_escapeTerm {f : Formatter} {token : Text} {c : Char}
    (h : c ∈ (f.withEscape escapeTerm).term token) : c = '\\' ∨ c ∈ token ∧ c.isUpper = false ∨ 0x61 ≤ c.toNat := by
  have hmem : c ∈ escapeBy needsEscape (Text.lowercase token) := by
    rw [← escapeTerm_eq_escapeBy]
    exact h
  rcases mem_escapeBy hmem with hslash | hlower
  · exact .inl hslash
  · exact .inr (Text.mem_lowercase hlower)

theorem keepsTerms_escapeTerm (f : Formatter) : (f.withEscape escapeTerm).KeepsTerms := by
  intro token h
  have hfree : ∀ c ∈ (f.withEscape escapeTerm).term token, isSeparator c = false := by
    intro c hc
    rcases mem_term_escapeTerm hc with rfl | ⟨hmem, -⟩ | hle
    · decide
    · exact h.not_isSeparator c hmem
    · rw [← Bool.not_eq_true]
      intro hsep
      have hblank := toNat_le_of_isSeparator hsep
      omega
  have hne : (f.withEscape escapeTerm).term token ≠ [] := escapeTerm_ne_nil (Text.lowercase_ne_nil h.ne_nil)
  refine ⟨tokens_of_forall hfree hne, ?_⟩
  rw [← Bool.not_eq_false, isTerm_eq_false_iff]
  rintro ⟨op, hop⟩
  -- an operator begins with a capital, which no term keeps
  obtain ⟨c, rest, hword, hupper, hlt, hslash⟩ : ∃ (c : Char) (rest : Text), op.word = c :: rest ∧ c.isUpper = true ∧
      c.toNat < 0x61 ∧ c ≠ '\\' := by
    cases op <;> exact ⟨_, _, rfl, by decide, by decide, by decide⟩
  have hmem : c ∈ (f.withEscape escapeTerm).term token := by
    rw [hop, hword]
    exact List.mem_cons_self
  rcases mem_term_escapeTerm hmem with h' | ⟨-, h'⟩ | h'
  · exact hslash h'
  · simp [hupper] at h'
  · omega

end Formatter

/-! ### Pieces -/

namespace Piece

/-- The tokens of a piece. -/
def tokens : Piece → List Text
  | .operator op => [op.word]
  | .term text => [text]
  | .joined text => [Operator.and.word, text]

/-- The text of a piece, if it has one, is read as a term. -/
def Readable : Piece → Prop
  | .operator _ => True
  | .term text => ReadsAsTerm text
  | .joined text => ReadsAsTerm text

end Piece

private theorem tokens_padded {word : Text} (h : tokens word = [word]) (rest : Text) :
    tokens (' ' :: word ++ ' ' :: rest) = word :: tokens rest := by
  rw [tokens_append_cons isSeparator_space, tokens_cons isSeparator_space, h]
  rfl

theorem tokens_word (op : Operator) : tokens op.word = [op.word] := by
  cases op <;> decide

theorem tokens_render_append {piece : Piece} (h : piece.Readable) (rest : Text) :
    tokens (piece.render ++ rest) = piece.tokens ++ tokens rest := by
  cases piece with
  | operator op =>
    have hrender : (Piece.operator op).render ++ rest = ' ' :: op.word ++ ' ' :: rest := by simp [Piece.render]
    rw [hrender, tokens_padded (tokens_word op)]
    rfl
  | term text =>
    have hrender : (Piece.term text).render ++ rest = ' ' :: text ++ ' ' :: rest := by simp [Piece.render]
    rw [hrender, tokens_padded h.tokens_eq]
    rfl
  | joined text =>
    have hrender : (Piece.joined text).render ++ rest
        = ' ' :: Operator.and.word ++ ' ' :: (text ++ ' ' :: rest) := by simp [Piece.render]
    rw [hrender, tokens_padded (tokens_word .and), tokens_append_cons isSeparator_space, h.tokens_eq]
    rfl

theorem tokens_flatMap_render {pieces : List Piece} (h : ∀ piece ∈ pieces, piece.Readable) :
    tokens (pieces.flatMap Piece.render) = pieces.flatMap Piece.tokens := by
  induction pieces with
  | nil => rfl
  | cons piece pieces ih =>
    obtain ⟨hpiece, hpieces⟩ := List.forall_mem_cons.mp h
    rw [List.flatMap_cons, tokens_render_append hpiece, ih hpieces]
    rfl

theorem tokens_intercalate_render {pieces : List Piece} (h : ∀ piece ∈ pieces, piece.Readable) :
    tokens ([' '].intercalate (pieces.map Piece.render)) = pieces.flatMap Piece.tokens := by
  induction pieces with
  | nil => rfl
  | cons piece pieces ih =>
    obtain ⟨hpiece, hpieces⟩ := List.forall_mem_cons.mp h
    have hrest := ih hpieces
    cases pieces with
    | nil =>
      have hrender := tokens_render_append hpiece []
      rw [List.append_nil] at hrender
      simpa [tokens_nil] using hrender
    | cons next pieces =>
      rw [List.map_cons, List.map_cons, List.intercalate_cons_cons, List.append_assoc,
        tokens_render_append hpiece, List.singleton_append, tokens_cons isSeparator_space, ← List.map_cons, hrest]
      rfl

namespace Formatter

variable {f : Formatter}

theorem dropTrailingOperators_eq (pieces : List Piece) :
    dropTrailingOperators pieces = pieces.rdropWhile Piece.isOperator := rfl

private theorem readable_piece (hf : f.KeepsTerms) {token : Text} (htoken : isTerm token = true → ReadsAsTerm token) :
    (f.piece token).Readable := by
  unfold piece
  cases hop : Operator.ofWord? token with
  | none => exact hf token (htoken (isTerm_iff.mpr hop))
  | some op => trivial

theorem readable_of_mem_piecesAny (hf : f.KeepsTerms) {query : Text} {piece : Piece} (h : piece ∈ f.piecesAny query) :
    piece.Readable := by
  unfold piecesAny at h
  rw [dropTrailingOperators_eq] at h
  have hmem := (List.dropWhile_sublist _).subset ((List.rdropWhile_prefix _ _).subset h)
  obtain ⟨token, htoken, rfl⟩ := List.mem_map.mp hmem
  exact readable_piece hf fun hterm => readsAsTerm_of_mem_tokens htoken hterm

/-- The tokens of a formatted query whose neighbouring terms are left to the backend are those of its pieces. -/
theorem tokens_formatAny (hf : f.KeepsTerms) (query : Text) :
    tokens (f.formatAny query) = (f.piecesAny query).flatMap Piece.tokens := by
  unfold formatAny
  rw [tokens_trimSpaces, tokens_flatMap_render fun _ => readable_of_mem_piecesAny hf]

private theorem readable_of_mem_push (hf : f.KeepsTerms) {done : List Piece} (hdone : ∀ piece ∈ done, piece.Readable)
    {token : Text} (htoken : isTerm token = true → ReadsAsTerm token) :
    ∀ piece ∈ f.push done token, piece.Readable := by
  unfold push
  cases hop : Operator.ofWord? token with
  | none =>
    have hterm := hf token (htoken (isTerm_iff.mpr hop))
    cases done with
    | nil => exact List.forall_mem_singleton.mpr hterm
    | cons last before =>
      refine List.forall_mem_cons.mpr ⟨?_, hdone⟩
      split <;> exact hterm
  | some op =>
    cases done with
    | nil => simp
    | cons last before =>
      show ∀ piece ∈ if last = .operator op then last :: before else .operator op :: last :: before, piece.Readable
      split
      · exact hdone
      · exact List.forall_mem_cons.mpr ⟨trivial, hdone⟩

private theorem readable_of_mem_foldl_push (hf : f.KeepsTerms) {ts : List Text}
    (hts : ∀ token ∈ ts, isTerm token = true → ReadsAsTerm token) {done : List Piece}
    (hdone : ∀ piece ∈ done, piece.Readable) : ∀ piece ∈ ts.foldl f.push done, piece.Readable := by
  induction ts generalizing done with
  | nil => exact hdone
  | cons token ts ih =>
    obtain ⟨htoken, hts⟩ := List.forall_mem_cons.mp hts
    exact ih hts (readable_of_mem_push hf hdone htoken)

theorem readable_of_mem_piecesAll (hf : f.KeepsTerms) {query : Text} {piece : Piece} (h : piece ∈ f.piecesAll query) :
    piece.Readable := by
  unfold piecesAll dropTrailingOperators at h
  rw [List.reverse_reverse, List.mem_reverse] at h
  have hterms : ∀ token ∈ tokens query, isTerm token = true → ReadsAsTerm token :=
    fun _ htoken => readsAsTerm_of_mem_tokens htoken
  exact readable_of_mem_foldl_push hf hterms (List.forall_mem_nil _) piece ((List.dropWhile_sublist _).subset h)

/-- The tokens of a formatted query whose neighbouring terms are joined are those of its pieces. -/
theorem tokens_formatAll (hf : f.KeepsTerms) (query : Text) :
    tokens (f.formatAll query) = (f.piecesAll query).flatMap Piece.tokens := by
  unfold formatAll
  rw [tokens_trimSpaces, tokens_intercalate_render fun _ => readable_of_mem_piecesAll hf]

end Formatter

end SourceIndex.Query
