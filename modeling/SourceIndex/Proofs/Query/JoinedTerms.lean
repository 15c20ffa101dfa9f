import Mathlib.Data.List.Destutter
import SourceIndex.Proofs.Query.FormattedTokens

/-!
# Queries whose terms are joined

`formatAll` reads the tokens of a query once, from left to right.  What it has written at any moment falls into three
parts: the tokens before the last term, the last term, and the operators after it with each run of one operator
collapsed (`Progress`).  The next token either extends the last part or closes it, and then exactly what belongs
between the two terms is there (`Progress.push`).  From this the tokens of the result are known (`formatAll_tokens`).
-/

namespace SourceIndex.Query

/-- The operators between each two consecutive terms. -/
def links (ts : List Text) : List (List Text) := (ts.splitOnP isTerm).tail.dropLast

/-- What is written between two terms, given the operators which the user put between them. -/
def joint (ops : List Text) : List Text :=
  if ops = [] then [Operator.and.word] else ops.destutter (· ≠ ·)

/-! ### Lists cut at terms -/

theorem splitOnP_append_term {xs ops : List Text} {token : Text} (hterm : isTerm token = true)
    (hops : ∀ op ∈ ops, isTerm op = false) :
    (xs ++ token :: ops).splitOnP isTerm = xs.splitOnP isTerm ++ [ops] := by
  rw [List.splitOnP_append_cons xs ops hterm, List.splitOnP_eq_singleton hops]

theorem links_append_term {xs ops : List Text} {token : Text} (hterm : isTerm token = true)
    (hops : ∀ op ∈ ops, isTerm op = false) : links (xs ++ token :: ops) = (xs.splitOnP isTerm).tail := by
  unfold links
  rw [splitOnP_append_term hterm hops, List.tail_append_of_ne_nil (List.splitOnP_ne_nil isTerm xs),
    List.dropLast_concat]

theorem isTerm_head_of_splitOnP {xs : List Text} {runs : List (List Text)}
    (h : xs.splitOnP isTerm = [] :: runs) : ∀ token ∈ xs.head?, isTerm token = true := by
  cases xs with
  | nil => simp
  | cons x xs =>
    intro token htoken
    obtain rfl : x = token := by simpa using htoken
    -- otherwise `x` would be in the first run
    by_contra hx
    rw [List.splitOnP_cons_eq_if_modifyHead, if_neg hx] at h
    obtain ⟨run, rest, hrun⟩ := List.exists_cons_of_ne_nil (List.splitOnP_ne_nil isTerm xs)
    simp [hrun] at h

/-! ### Collapsed runs -/

private theorem destutter'_concat (a : Text) (l : List Text) (x : Text) :
    (l ++ [x]).destutter' (· ≠ ·) a
      = if (l.destutter' (· ≠ ·) a).getLast? = some x then l.destutter' (· ≠ ·) a
        else l.destutter' (· ≠ ·) a ++ [x] := by
  induction l generalizing a with
  | nil => by_cases h : a = x <;> simp [h]
  | cons b l ih =>
    rw [List.cons_append]
    by_cases h : a ≠ b
    · have hlast : (a :: l.destutter' (· ≠ ·) b).getLast? = (l.destutter' (· ≠ ·) b).getLast? := by
        obtain ⟨c, rest, hrest⟩ := List.exists_cons_of_ne_nil (List.destutter'_ne_nil l (R := (· ≠ ·)) (a := b))
        rw [hrest, List.getLast?_cons_cons]
      rw [List.destutter'_cons_pos _ h, List.destutter'_cons_pos _ h, ih, hlast]
      split <;> rfl
    · rw [List.destutter'_cons_neg _ h, List.destutter'_cons_neg _ h, ih]

/-- One more element at the end of a list only counts if it differs from the one before it. -/
private theorem destutter_concat (l : List Text) (x : Text) :
    (l ++ [x]).destutter (· ≠ ·)
      = if (l.destutter (· ≠ ·)).getLast? = some x then l.destutter (· ≠ ·) else l.destutter (· ≠ ·) ++ [x] := by
  cases l with
  | nil => simp
  | cons a l =>
    simp only [List.cons_append, List.destutter_cons']
    exact destutter'_concat a l x

theorem isTerm_of_mem_destutter {ops : List Text} (hops : ∀ op ∈ ops, isTerm op = false) :
    ∀ op ∈ ops.destutter (· ≠ ·), isTerm op = false :=
  fun op hop => hops op ((List.destutter_sublist _ ops).subset hop)

private theorem isTerm_of_mem_joint {ops : List Text} (hops : ∀ op ∈ ops, isTerm op = false) :
    ∀ op ∈ joint ops, isTerm op = false := by
  intro op hop
  unfold joint at hop
  split at hop
  · rw [List.mem_singleton.mp hop]
    exact isTerm_word .and
  · exact isTerm_of_mem_destutter hops op hop

namespace Formatter

variable {f : Formatter}

/-! ### What has been written -/

/-- The tokens written before some term of a query, against those read before it. -/
structure Renders (f : Formatter) (read written : List Text) : Prop where
  terms_eq : written.filter isTerm = (read.filter isTerm).map f.term
  runs_eq : written.splitOnP isTerm = [] :: (read.splitOnP isTerm).tail.map joint

/-- The pieces after some tokens, the last piece first. -/
inductive Progress (f : Formatter) : List Text → List Piece → Prop
  | start {ts : List Text} (hts : ∀ token ∈ ts, isTerm token = false) : Progress f ts []
  | after {read written ops : List Text} {token : Text} {last : Piece} {done : List Piece}
      (htoken : ReadsAsTerm token) (hops : ∀ op ∈ ops, isTerm op = false) (hlast : last.isOperator = false)
      (hwritten : (last :: done).reverse.flatMap Piece.tokens = written ++ [f.term token])
      (hrenders : Renders f read written) :
      Progress f (read ++ token :: ops) ((ops.destutter (· ≠ ·)).reverse.map f.piece ++ last :: done)

theorem piece_word (op : Operator) : f.piece op.word = .operator op := by
  unfold piece
  rw [Operator.ofWord?_word]

private theorem piece_eq_operator_iff {token : Text} {op : Operator} :
    f.piece token = .operator op ↔ token = op.word := by
  rw [← Operator.ofWord?_eq_some_iff]
  unfold piece
  split <;> simp_all

theorem isOperator_piece {token : Text} (h : isTerm token = false) : (f.piece token).isOperator = true := by
  obtain ⟨op, rfl⟩ := isTerm_eq_false_iff.mp h
  rw [piece_word]
  rfl

private theorem flatMap_tokens_piece {ops : List Text} (hops : ∀ op ∈ ops, isTerm op = false) :
    (ops.map f.piece).flatMap Piece.tokens = ops := by
  induction ops with
  | nil => rfl
  | cons token ops ih =>
    obtain ⟨htoken, hrest⟩ := List.forall_mem_cons.mp hops
    obtain ⟨op, rfl⟩ := isTerm_eq_false_iff.mp htoken
    rw [List.map_cons, List.flatMap_cons, ih hrest, piece_word]
    rfl

private theorem Renders.append (hf : f.KeepsTerms) {read written ops : List Text} {token : Text}
    (h : Renders f read written) (htoken : ReadsAsTerm token) (hops : ∀ op ∈ ops, isTerm op = false) :
    Renders f (read ++ token :: ops) (written ++ f.term token :: joint ops) := by
  have hterm := (hf token htoken).isTerm_eq
  have hjoint := isTerm_of_mem_joint hops
  constructor
  · have hnone : ops.filter isTerm = [] := by simpa using hops
    have hnone' : (joint ops).filter isTerm = [] := by simpa using hjoint
    rw [List.filter_append, List.filter_cons_of_pos hterm, hnone', List.filter_append,
      List.filter_cons_of_pos htoken.isTerm_eq, hnone, h.terms_eq, List.map_append]
    rfl
  · rw [splitOnP_append_term hterm hjoint, splitOnP_append_term htoken.isTerm_eq hops, h.runs_eq,
      List.tail_append_of_ne_nil (List.splitOnP_ne_nil isTerm read), List.map_append]
    rfl

/-! ### One token -/

private theorem push_operator (op : Operator) (last : Piece) (before : List Piece) :
    f.push (last :: before) op.word
      = if last = .operator op then last :: before else .operator op :: last :: before := by
  unfold push
  rw [Operator.ofWord?_word]

private theorem push_term {token : Text} (h : isTerm token = true) (last : Piece) (before : List Piece) :
    f.push (last :: before) token
      = (if last.isOperator then .term (f.term token) else .joined (f.term token)) :: last :: before := by
  unfold push
  rw [isTerm_iff.mp h]

private theorem push_operator_collapsed (ops : List Text) (op : Operator) {last : Piece}
    (hlast : last.isOperator = false) (done : List Piece) :
    f.push ((ops.destutter (· ≠ ·)).reverse.map f.piece ++ last :: done) op.word
      = ((ops ++ [op.word]).destutter (· ≠ ·)).reverse.map f.piece ++ last :: done := by
  rw [destutter_concat]
  rcases List.eq_nil_or_concat' (ops.destutter (· ≠ ·)) with hnil | ⟨kept, x, hconcat⟩
  · have hne : last ≠ .operator op := by
      rintro rfl
      simp [Piece.isOperator] at hlast
    simp only [hnil, List.reverse_nil, List.map_nil, List.nil_append, List.getLast?_nil]
    rw [push_operator, if_neg hne]
    simp [piece_word]
  · simp only [hconcat, List.reverse_append, List.reverse_singleton, List.map_cons, List.cons_append,
      List.getLast?_append, List.getLast?_singleton]
    rw [push_operator]
    by_cases hx : x = op.word
    · simp [hx, piece_word]
    · have hpiece : f.piece x ≠ .operator op := fun h => hx (piece_eq_operator_iff.mp h)
      simp [hx, hpiece, piece_word]

private theorem push_term_collapsed {ops : List Text} (hops : ∀ op ∈ ops, isTerm op = false) {token : Text}
    (hterm : isTerm token = true) {last : Piece} (hlast : last.isOperator = false) (done : List Piece) :
    ∃ next : Piece, f.push ((ops.destutter (· ≠ ·)).reverse.map f.piece ++ last :: done) token
        = next :: ((ops.destutter (· ≠ ·)).reverse.map f.piece ++ last :: done) ∧
      next.isOperator = false ∧ ops.destutter (· ≠ ·) ++ next.tokens = joint ops ++ [f.term token] := by
  by_cases hnil : ops = []
  · subst hnil
    refine ⟨.joined (f.term token), ?_, rfl, rfl⟩
    simp [push_term hterm, hlast]
  · have hne : ops.destutter (· ≠ ·) ≠ [] := by simpa using hnil
    obtain ⟨kept, x, hconcat⟩ := (List.eq_nil_or_concat' _).resolve_left hne
    have hx : isTerm x = false := by
      apply isTerm_of_mem_destutter hops
      rw [hconcat]
      exact List.mem_concat_self
    refine ⟨.term (f.term token), ?_, rfl, ?_⟩
    · simp [hconcat, push_term hterm, isOperator_piece hx]
    · rw [joint, if_neg hnil]
      rfl

private theorem isTerm_of_mem_concat_word {ops : List Text} (hops : ∀ op ∈ ops, isTerm op = false) (op : Operator) :
    ∀ token ∈ ops ++ [op.word], isTerm token = false :=
  List.forall_mem_append.mpr ⟨hops, List.forall_mem_singleton.mpr (isTerm_word op)⟩

private theorem Progress.push_operator {ts : List Text} {done : List Piece} (h : Progress f ts done) (op : Operator) :
    Progress f (ts ++ [op.word]) (f.push done op.word) := by
  cases h with
  | start hts =>
    have hpush : f.push [] op.word = [] := by
      unfold Formatter.push
      rw [Operator.ofWord?_word]
    rw [hpush]
    exact .start (isTerm_of_mem_concat_word hts op)
  | after htoken hops hlast hwritten hrenders =>
    rw [push_operator_collapsed _ op hlast, List.append_assoc, List.cons_append]
    exact .after htoken (isTerm_of_mem_concat_word hops op) hlast hwritten hrenders

private theorem Progress.push_term (hf : f.KeepsTerms) {ts : List Text} {done : List Piece} (h : Progress f ts done)
    {token : Text} (htoken : ReadsAsTerm token) : Progress f (ts ++ [token]) (f.push done token) := by
  cases h with
  | start hts =>
    have hpush : f.push [] token = [.term (f.term token)] := by
      unfold Formatter.push
      rw [isTerm_iff.mp htoken.isTerm_eq]
    have hrenders : Renders f ts [] := by
      constructor
      · have hnoTerm : ts.filter isTerm = [] := by simpa using hts
        rw [hnoTerm]
        rfl
      · rw [List.splitOnP_eq_singleton hts]
        rfl
    rw [hpush]
    exact .after htoken (List.forall_mem_nil _) rfl rfl hrenders
  | @after read written ops term last done hterm hops hlast hwritten hrenders =>
    -- the collapsed operators after the last term, with the `AND` of the next piece if it brings one, are the joint
    obtain ⟨next, hpush, hnext, htokens⟩ := push_term_collapsed (f := f) hops htoken.isTerm_eq hlast done
    have hnew : (next :: ((ops.destutter (· ≠ ·)).reverse.map f.piece ++ last :: done)).reverse.flatMap Piece.tokens
        = (written ++ f.term term :: joint ops) ++ [f.term token] := by
      calc (next :: ((ops.destutter (· ≠ ·)).reverse.map f.piece ++ last :: done)).reverse.flatMap Piece.tokens
          = (last :: done).reverse.flatMap Piece.tokens
              ++ (((ops.destutter (· ≠ ·)).map f.piece).flatMap Piece.tokens ++ next.tokens) := by simp
        _ = (written ++ [f.term term]) ++ (ops.destutter (· ≠ ·) ++ next.tokens) := by
          rw [hwritten, flatMap_tokens_piece (isTerm_of_mem_destutter hops)]
        _ = (written ++ f.term term :: joint ops) ++ [f.term token] := by
          rw [htokens]
          simp
    rw [hpush]
    exact .after htoken (List.forall_mem_nil _) hnext hnew (hrenders.append hf hterm hops)

/-! ### A whole query -/

private theorem progress_foldl (hf : f.KeepsTerms) {ts : List Text}
    (hts : ∀ token ∈ ts, isTerm token = true → ReadsAsTerm token) : Progress f ts (ts.foldl f.push []) := by
  -- each token is pushed onto what the ones before it left, so the induction is on the end of the tokens
  induction ts using List.reverseRecOn with
  | nil => exact .start (List.forall_mem_nil _)
  | append_singleton ts token ih =>
    obtain ⟨hts, htoken⟩ := List.forall_mem_append.mp hts
    have hdone := ih hts
    rw [List.foldl_append, List.foldl_cons, List.foldl_nil]
    by_cases hterm : isTerm token = true
    · exact hdone.push_term hf (List.forall_mem_singleton.mp htoken hterm)
    · obtain ⟨op, rfl⟩ := isTerm_eq_false_iff.mp (by simpa using hterm)
      exact hdone.push_operator op

private theorem dropTrailingOperators_collapsed {ops : List Text} (hops : ∀ op ∈ ops, isTerm op = false) {last : Piece}
    (hlast : last.isOperator = false) (done : List Piece) :
    dropTrailingOperators ((ops.destutter (· ≠ ·)).reverse.map f.piece ++ last :: done).reverse
      = (last :: done).reverse := by
  have hpieces : ∀ piece ∈ (ops.destutter (· ≠ ·)).reverse.map f.piece, piece.isOperator = true := by
    intro piece hpiece
    obtain ⟨op, hop, rfl⟩ := List.mem_map.mp hpiece
    exact isOperator_piece (isTerm_of_mem_destutter hops op (List.mem_reverse.mp hop))
  unfold dropTrailingOperators
  rw [List.reverse_reverse, List.dropWhile_append_of_pos hpieces, List.dropWhile_cons_of_neg (by simp [hlast])]

/-- A query without terms leaves nothing.  Otherwise it is cut at its last term, which ends the result. -/
theorem tokens_formatAll_cases (hf : f.KeepsTerms) (query : Text) :
    (∀ token ∈ tokens query, isTerm token = false) ∧ f.formatAll query = [] ∨
      ∃ read written ops token, tokens query = read ++ token :: ops ∧ ReadsAsTerm token ∧
        (∀ op ∈ ops, isTerm op = false) ∧ Renders f read written ∧
        tokens (f.formatAll query) = written ++ [f.term token] := by
  have hterms : ∀ token ∈ tokens query, isTerm token = true → ReadsAsTerm token :=
    fun _ htoken => readsAsTerm_of_mem_tokens htoken
  have hprogress := progress_foldl hf hterms
  generalize hts : tokens query = ts at hprogress ⊢
  generalize hdone : ts.foldl f.push [] = done at hprogress
  cases hprogress with
  | start hnone =>
    left
    refine ⟨hnone, ?_⟩
    unfold formatAll piecesAll
    rw [hts, hdone]
    rfl
  | after htoken hops hlast hwritten hrenders =>
    right
    refine ⟨_, _, _, _, rfl, htoken, hops, hrenders, ?_⟩
    rw [tokens_formatAll hf, piecesAll, hts, hdone, dropTrailingOperators_collapsed hops hlast, hwritten]

/-- Only a query without terms leaves nothing. -/
theorem formatAll_eq_nil_iff (hf : f.KeepsTerms) {query : Text} :
    f.formatAll query = [] ↔ ∀ token ∈ tokens query, isTerm token = false := by
  rcases tokens_formatAll_cases hf query with ⟨hnone, hout⟩ | ⟨read, written, ops, token, hquery, htoken, -, -, hout⟩
  · exact iff_of_true hout hnone
  · refine iff_of_false ?_ ?_
    · intro hnil
      rw [hnil] at hout
      exact absurd hout (by simp [tokens_nil])
    · intro hnone
      have hoperator := hnone token (by simp [hquery])
      simp [htoken.isTerm_eq] at hoperator

/-- The tokens of a query whose terms are joined: its terms, lowercased and escaped, are all there in their order and
nothing else is a term; a term comes first and a term comes last, and only a query without terms leaves nothing; and
two neighbouring terms are joined by the operators that the user put between them, each run of one operator collapsed,
or by a single `AND` if there are none. -/
theorem formatAll_tokens (f : Formatter) (query : Text) :
    let out := (f.withEscape escapeTerm).formatAll query
    (tokens out).filter isTerm
        = ((tokens query).filter isTerm).map (fun token => escapeTerm (Text.lowercase token)) ∧
      (∀ token ∈ (tokens out).head?, isTerm token = true) ∧
      (∀ token ∈ (tokens out).getLast?, isTerm token = true) ∧
      (out = [] ↔ ∀ token ∈ tokens query, isTerm token = false) ∧
      links (tokens out) = (links (tokens query)).map joint := by
  have hf := keepsTerms_escapeTerm f
  intro out
  rcases tokens_formatAll_cases hf query with
    ⟨hnone, hout⟩ | ⟨read, written, ops, term, hquery, hterm, hops, hrenders, hout⟩
  · have hnil : tokens out = [] := congrArg tokens hout
    have hterms : (tokens query).filter isTerm = [] := by simpa using hnone
    refine ⟨by simp [hnil, hterms], by simp [hnil], by simp [hnil], iff_of_true hout hnone, ?_⟩
    rw [hnil, links, links, List.splitOnP_eq_singleton hnone]
    rfl
  · have hlast := (hf term hterm).isTerm_eq
    have hnoTerm : ops.filter isTerm = [] := by simpa using hops
    have hout : tokens out = written ++ [(f.withEscape escapeTerm).term term] := hout
    refine ⟨?_, ?_, ?_, ?_, ?_⟩
    · rw [hout, hquery, List.filter_append, List.filter_append, List.filter_cons_of_pos hlast,
        List.filter_cons_of_pos hterm.isTerm_eq, hnoTerm, hrenders.terms_eq, List.map_append]
      rfl
    · rw [hout, List.head?_append]
      have hhead := isTerm_head_of_splitOnP hrenders.runs_eq
      cases hwritten : written.head? with
      | none => simpa using hlast
      | some first => simpa using hhead first hwritten
    · rw [hout, List.getLast?_concat]
      simpa using hlast
    · refine iff_of_false ?_ ?_
      · intro hnil
        rw [hnil] at hout
        exact absurd hout (by simp [tokens_nil])
      · intro hnone
        have hmem : term ∈ tokens query := by simp [hquery]
        exact absurd (hnone term hmem) (by simp [hterm.isTerm_eq])
    · rw [hout, hquery, links_append_term hlast (List.forall_mem_nil _), links_append_term hterm.isTerm_eq hops,
        hrenders.runs_eq]
      rfl

end Formatter

end SourceIndex.Query
