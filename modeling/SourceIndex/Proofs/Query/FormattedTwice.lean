import SourceIndex.Proofs.Query.QueryTerms

/-!
# Formatting a formatted query

A formatted query is a query, and formatting it again changes nothing but the joints of a query whose neighbouring
terms were left to the backend.  What is compared are tokens: those of a query whose terms are joined are known from
its terms and from the operators between them (`filter_tokens_formatAll`, `splitOnP_tokens_formatAll`), and those of
the other mode are the tokens of the query without some operators at the ends (`tokens_formatAny_eq`).  A term that
needs no escape is not changed a second time (`settles_of_bare`), and so the modes can be composed in any order
(`formatted_twice`).
-/

namespace SourceIndex.Query

/-! ### Lists between terms -/

/-- A list is known from its elements that satisfy `p` and from the runs between them. -/
theorem eq_of_filter_of_splitOnP {α : Type} {p : α → Bool} {l l' : List α} (hfilter : l.filter p = l'.filter p)
    (hsplit : l.splitOnP p = l'.splitOnP p) : l = l' := by
  rw [← List.splitOnP_spec (p := p) l, ← List.splitOnP_spec (p := p) l', hfilter, hsplit]

theorem joint_joint (ops : List Text) : joint (joint ops) = joint ops := by
  by_cases hnil : ops = []
  · rw [hnil]
    rfl
  · have hne : ops.destutter (· ≠ ·) ≠ [] := by simpa using hnil
    rw [joint, joint, if_neg hnil, if_neg hne, List.destutter_idem]

/-- A list with a term is cut at its last term. -/
private theorem exists_last_term {ts : List Text} {token : Text} (h : token ∈ ts) (hterm : isTerm token = true) :
    ∃ xs last ops, ts = xs ++ last :: ops ∧ isTerm last = true ∧ ∀ op ∈ ops, isTerm op = false := by
  induction ts using List.reverseRecOn with
  | nil => simp at h
  | append_singleton ts x ih =>
    by_cases hx : isTerm x = true
    · exact ⟨ts, x, [], rfl, hx, List.forall_mem_nil _⟩
    · have hmem : token ∈ ts := by
        rcases List.mem_append.mp h with h | h
        · exact h
        · exact absurd (List.mem_singleton.mp h ▸ hterm) hx
      obtain ⟨xs, last, ops, rfl, hlast, hops⟩ := ih hmem
      refine ⟨xs, last, ops ++ [x], by simp, hlast, ?_⟩
      exact List.forall_mem_append.mpr ⟨hops, List.forall_mem_singleton.mpr (by simpa using hx)⟩

private theorem splitOnP_append_of_forall {ops : List Text} (hops : ∀ op ∈ ops, isTerm op = false) (ts : List Text) :
    (ops ++ ts).splitOnP isTerm = (ts.splitOnP isTerm).modifyHead (ops ++ ·) := by
  induction ops with
  | nil =>
    cases h : ts.splitOnP isTerm with
    | nil => exact absurd h (List.splitOnP_ne_nil isTerm ts)
    | cons run runs => simp [h]
  | cons op ops ih =>
    obtain ⟨hop, hops⟩ := List.forall_mem_cons.mp hops
    rw [List.cons_append, List.splitOnP_cons_eq_if_modifyHead, if_neg (by simp [hop]), ih hops,
      List.modifyHead_modifyHead]
    rfl

/-- Operators at the beginning stand between no terms. -/
theorem links_append_left {ops : List Text} (hops : ∀ op ∈ ops, isTerm op = false) (ts : List Text) :
    links (ops ++ ts) = links ts := by
  unfold links
  rw [splitOnP_append_of_forall hops, List.tail_modifyHead]

/-- Operators at the end stand between no terms. -/
theorem links_append_right {ops : List Text} (hops : ∀ op ∈ ops, isTerm op = false) (ts : List Text) :
    links (ts ++ ops) = links ts := by
  by_cases hnone : ∀ token ∈ ts, isTerm token = false
  · unfold links
    rw [List.splitOnP_eq_singleton hnone, List.splitOnP_eq_singleton (List.forall_mem_append.mpr ⟨hnone, hops⟩)]
    rfl
  · obtain ⟨token, htoken, hterm⟩ : ∃ token ∈ ts, isTerm token = true := by simpa using hnone
    obtain ⟨xs, last, rest, rfl, hlast, hrest⟩ := exists_last_term htoken hterm
    rw [List.append_assoc, List.cons_append, links_append_term hlast hrest,
      links_append_term hlast (List.forall_mem_append.mpr ⟨hrest, hops⟩)]

/-! ### Neighbouring terms left to the backend -/

/-- Whether a token is an operator that needs something before it. -/
def needsLeft (token : Text) : Bool := token == Operator.and.word || token == Operator.or.word

/-- The tokens of a query without the operators that have nothing to apply to. -/
def kept (query : Text) : List Text :=
  ((tokens query).dropWhile needsLeft).rdropWhile fun token => !isTerm token

theorem isTerm_of_needsLeft {token : Text} (h : needsLeft token = true) : isTerm token = false := by
  rw [needsLeft, Bool.or_eq_true, beq_iff_eq, beq_iff_eq] at h
  rcases h with rfl | rfl <;> exact isTerm_word _

theorem mem_tokens_of_mem_kept {query token : Text} (h : token ∈ kept query) : token ∈ tokens query :=
  (List.dropWhile_sublist _).subset ((List.rdropWhile_prefix _ _).subset h)

/-- Only operators are dropped, and only at the two ends. -/
theorem exists_kept_append (query : Text) : ∃ front back, tokens query = front ++ kept query ++ back ∧
    (∀ op ∈ front, isTerm op = false) ∧ ∀ op ∈ back, isTerm op = false := by
  refine ⟨(tokens query).takeWhile needsLeft,
    ((tokens query).dropWhile needsLeft).rtakeWhile fun token => !isTerm token, ?_, ?_, ?_⟩
  · rw [kept, List.append_assoc, List.rdropWhile_append_rtakeWhile, List.takeWhile_append_dropWhile]
  · exact fun op hop => isTerm_of_needsLeft (List.mem_takeWhile_imp hop)
  · intro op hop
    simpa using List.mem_rtakeWhile_imp hop

theorem filter_kept (query : Text) : (kept query).filter isTerm = terms query := by
  obtain ⟨front, back, hquery, hfront, hback⟩ := exists_kept_append query
  have hfront : front.filter isTerm = [] := by simpa using hfront
  have hback : back.filter isTerm = [] := by simpa using hback
  rw [terms, hquery, List.filter_append, List.filter_append, hfront, hback, List.nil_append, List.append_nil]

theorem links_kept (query : Text) : links (kept query) = links (tokens query) := by
  obtain ⟨front, back, hquery, hfront, hback⟩ := exists_kept_append query
  rw [hquery, links_append_right hback, links_append_left hfront]

theorem needsLeft_head_kept {query token : Text} (h : (kept query).head? = some token) : needsLeft token = false := by
  have hprefix : kept query <+: (tokens query).dropWhile needsLeft := List.rdropWhile_prefix _ _
  have hhead : ((tokens query).dropWhile needsLeft).head? = some token := by
    obtain ⟨rest, hrest⟩ := hprefix
    rw [← hrest, List.head?_append, h]
    rfl
  have hnot := List.head?_dropWhile_not needsLeft (tokens query)
  rwa [hhead] at hnot

theorem isTerm_getLast_kept {query token : Text} (h : (kept query).getLast? = some token) : isTerm token = true := by
  have hne : kept query ≠ [] := by
    intro hnil
    simp [hnil] at h
  have hlast : ¬ (!isTerm ((kept query).getLast hne)) = true := List.rdropWhile_last_not _ _ hne
  rw [List.getLast?_eq_some_getLast hne, Option.some.injEq] at h
  rw [← h]
  simpa using hlast

/-- Nothing is dropped from a query that begins with no operator that needs something before it and ends with a
term. -/
theorem kept_eq_tokens {query : Text} (hhead : ∀ token, (tokens query).head? = some token → needsLeft token = false)
    (hlast : ∀ token, (tokens query).getLast? = some token → isTerm token = true) : kept query = tokens query := by
  have hfront : (tokens query).dropWhile needsLeft = tokens query := by
    rw [List.dropWhile_eq_self_iff]
    intro hpos
    simpa using hhead _ (List.head?_eq_getElem? ▸ List.getElem?_eq_getElem hpos)
  rw [kept, hfront, List.rdropWhile_eq_self_iff]
  intro hne
  simpa using hlast _ (List.getLast?_eq_some_getLast hne)

namespace Formatter

variable {f : Formatter}

/-- The token that is written for a token. -/
def write (f : Formatter) (token : Text) : Text := if isTerm token then f.term token else token

theorem needsLeft_piece (f : Formatter) (token : Text) : (f.piece token).needsLeft = needsLeft token := by
  by_cases hterm : isTerm token = true
  · rw [piece_of_isTerm hterm]
    cases hleft : needsLeft token with
    | false => rfl
    | true => simp [isTerm_of_needsLeft hleft] at hterm
  · obtain ⟨op, rfl⟩ := isTerm_eq_false_iff.mp (by simpa using hterm)
    rw [piece_word]
    cases op <;> decide

theorem isOperator_piece_eq (f : Formatter) (token : Text) : (f.piece token).isOperator = !isTerm token := by
  by_cases hterm : isTerm token = true
  · rw [piece_of_isTerm hterm, hterm]
    rfl
  · rw [isOperator_piece (by simpa using hterm)]
    simp [hterm]

theorem tokens_piece (f : Formatter) (token : Text) : (f.piece token).tokens = [f.write token] := by
  by_cases hterm : isTerm token = true
  · rw [piece_of_isTerm hterm, write, if_pos hterm]
    rfl
  · obtain ⟨op, rfl⟩ := isTerm_eq_false_iff.mp (by simpa using hterm)
    rw [piece_word, write, if_neg hterm]
    rfl

theorem piecesAny_eq (f : Formatter) (query : Text) : f.piecesAny query = (kept query).map f.piece := by
  have hleft : Piece.needsLeft ∘ f.piece = needsLeft := funext (needsLeft_piece f)
  have hoperator : Piece.isOperator ∘ f.piece = fun token => !isTerm token := funext (isOperator_piece_eq f)
  unfold piecesAny kept
  rw [dropTrailingOperators_eq, List.dropWhile_map, hleft, List.rdropWhile, ← List.map_reverse, List.dropWhile_map,
    hoperator, ← List.map_reverse]
  rfl

theorem tokens_formatAny_eq (hf : f.KeepsTerms) (query : Text) :
    tokens (f.formatAny query) = (kept query).map f.write := by
  rw [tokens_formatAny hf, piecesAny_eq, List.flatMap_map]
  simp only [tokens_piece]
  exact List.map_eq_flatMap.symm

/-! ### Terms joined by `AND` -/

/-- The terms of a query whose terms are joined. -/
theorem filter_tokens_formatAll (hf : f.KeepsTerms) (query : Text) :
    (tokens (f.formatAll query)).filter isTerm = (terms query).map f.term := by
  unfold terms
  rcases tokens_formatAll_cases hf query with
    ⟨hnone, hout⟩ | ⟨read, written, ops, term, hquery, hterm, hops, hrenders, hout⟩
  · have hnoTerm : (tokens query).filter isTerm = [] := by simpa using hnone
    rw [hnoTerm, hout, tokens_nil]
    rfl
  · have hnoTerm : ops.filter isTerm = [] := by simpa using hops
    rw [hout, hquery, List.filter_append, List.filter_append, List.filter_cons_of_pos (hf term hterm).isTerm_eq,
      List.filter_cons_of_pos hterm.isTerm_eq, hnoTerm, hrenders.terms_eq, List.map_append]
    rfl

/-- The runs between the terms of a query whose terms are joined: nothing at the ends, and the joints. -/
theorem splitOnP_tokens_formatAll (hf : f.KeepsTerms) {query : Text} (hne : terms query ≠ []) :
    (tokens (f.formatAll query)).splitOnP isTerm = [] :: (links (tokens query)).map joint ++ [[]] := by
  rcases tokens_formatAll_cases hf query with
    ⟨hnone, -⟩ | ⟨read, written, ops, term, hquery, hterm, hops, hrenders, hout⟩
  · exact absurd (terms_eq_nil_iff.mpr hnone) hne
  · rw [hout, splitOnP_append_term (hf term hterm).isTerm_eq (List.forall_mem_nil _), hrenders.runs_eq, hquery,
      links_append_term hterm.isTerm_eq hops]

theorem links_tokens_formatAll (hf : f.KeepsTerms) (query : Text) :
    links (tokens (f.formatAll query)) = (links (tokens query)).map joint := by
  by_cases hnone : terms query = []
  · have hout := (formatAll_eq_nil_iff hf).mpr (terms_eq_nil_iff.mp hnone)
    rw [hout, tokens_nil, links, links, List.splitOnP_eq_singleton (terms_eq_nil_iff.mp hnone)]
    rfl
  · rw [links, splitOnP_tokens_formatAll hf hnone, List.cons_append, List.tail_cons, List.dropLast_concat]

/-- Only the terms that are written and the joints matter. -/
theorem tokens_formatAll_congr (hf : f.KeepsTerms) {query query' : Text}
    (hterms : (terms query').map f.term = (terms query).map f.term)
    (hlinks : (links (tokens query')).map joint = (links (tokens query)).map joint) :
    tokens (f.formatAll query') = tokens (f.formatAll query) := by
  have hfilter : (tokens (f.formatAll query')).filter isTerm = (tokens (f.formatAll query)).filter isTerm := by
    rw [filter_tokens_formatAll hf, filter_tokens_formatAll hf, hterms]
  by_cases hnone : terms query = []
  · have hnone' : terms query' = [] := by simpa [hnone] using hterms
    rw [(formatAll_eq_nil_iff hf).mpr (terms_eq_nil_iff.mp hnone),
      (formatAll_eq_nil_iff hf).mpr (terms_eq_nil_iff.mp hnone')]
  · have hnone' : terms query' ≠ [] := by
      intro hnil
      apply hnone
      simpa [hnil] using hterms.symm
    refine eq_of_filter_of_splitOnP hfilter ?_
    rw [splitOnP_tokens_formatAll hf hnone, splitOnP_tokens_formatAll hf hnone', hlinks]

/-! ### Tokens that are written -/

theorem isTerm_write (hf : f.KeepsTerms) {query token : Text} (h : token ∈ tokens query) :
    isTerm (f.write token) = isTerm token := by
  unfold write
  split
  · next hterm => rw [(hf token (readsAsTerm_of_mem_tokens h hterm)).isTerm_eq, hterm]
  · rfl

private theorem filter_map_write {ts : List Text} (h : ∀ token ∈ ts, isTerm (f.write token) = isTerm token) :
    (ts.map f.write).filter isTerm = (ts.filter isTerm).map f.term := by
  induction ts with
  | nil => rfl
  | cons token ts ih =>
    obtain ⟨htoken, hts⟩ := List.forall_mem_cons.mp h
    rw [List.map_cons, List.filter_cons, List.filter_cons, htoken, ih hts]
    split
    · next hterm => rw [List.map_cons, write, if_pos hterm]
    · rfl

private theorem splitOnP_map_write {ts : List Text} (h : ∀ token ∈ ts, isTerm (f.write token) = isTerm token) :
    (ts.map f.write).splitOnP isTerm = ts.splitOnP isTerm := by
  induction ts with
  | nil => rfl
  | cons token ts ih =>
    obtain ⟨htoken, hts⟩ := List.forall_mem_cons.mp h
    rw [List.map_cons, List.splitOnP_cons_eq_if_modifyHead, List.splitOnP_cons_eq_if_modifyHead, htoken, ih hts]
    split
    · rfl
    · next hterm => rw [write, if_neg hterm]

theorem terms_formatAny (hf : f.KeepsTerms) (query : Text) : terms (f.formatAny query) = (terms query).map f.term := by
  rw [terms, tokens_formatAny_eq hf, filter_map_write fun _ h => isTerm_write hf (mem_tokens_of_mem_kept h),
    filter_kept]

theorem links_tokens_formatAny (hf : f.KeepsTerms) (query : Text) :
    links (tokens (f.formatAny query)) = links (tokens query) := by
  rw [tokens_formatAny_eq hf, ← links_kept, links, links,
    splitOnP_map_write fun _ h => isTerm_write hf (mem_tokens_of_mem_kept h)]

theorem kept_formatAny (hf : f.KeepsTerms) (query : Text) :
    kept (f.formatAny query) = tokens (f.formatAny query) := by
  apply kept_eq_tokens
  · intro token h
    rw [tokens_formatAny_eq hf, List.head?_map, Option.map_eq_some_iff] at h
    obtain ⟨first, hfirst, rfl⟩ := h
    have hmem := mem_tokens_of_mem_kept (List.mem_of_head? hfirst)
    rw [← Bool.not_eq_true]
    intro hleft
    have hoperator := isTerm_of_needsLeft hleft
    rw [isTerm_write hf hmem] at hoperator
    have hwrite : f.write first = first := if_neg (by simp [hoperator])
    rw [hwrite, needsLeft_head_kept hfirst] at hleft
    exact Bool.noConfusion hleft
  · intro token h
    rw [tokens_formatAny_eq hf, List.getLast?_map, Option.map_eq_some_iff] at h
    obtain ⟨last, hlast, rfl⟩ := h
    rw [isTerm_write hf (mem_tokens_of_mem_kept (List.mem_of_getLast? hlast)), isTerm_getLast_kept hlast]

theorem kept_formatAll (hf : f.KeepsTerms) (query : Text) :
    kept (f.formatAll query) = tokens (f.formatAll query) := by
  apply kept_eq_tokens
  · intro token h
    by_cases hnone : terms query = []
    · rw [(formatAll_eq_nil_iff hf).mpr (terms_eq_nil_iff.mp hnone)] at h
      simp [tokens_nil] at h
    · have hterm := isTerm_head_of_splitOnP (splitOnP_tokens_formatAll hf hnone) token h
      rw [← Bool.not_eq_true]
      intro hleft
      simp [isTerm_of_needsLeft hleft] at hterm
  · intro token h
    rcases tokens_formatAll_cases hf query with ⟨-, hout⟩ | ⟨read, written, ops, term, -, hterm, -, -, hout⟩
    · simp [hout, tokens_nil] at h
    · rw [hout, List.getLast?_concat, Option.some.injEq] at h
      rw [← h]
      exact (hf term hterm).isTerm_eq

/-! ### Formatting twice -/

/-- The terms of a query are not changed any more when they are written a second time. -/
def Settles (f : Formatter) (query : Text) : Prop := ∀ token ∈ terms query, f.term (f.term token) = f.term token

private theorem map_term_map_term {query : Text} (h : f.Settles query) :
    ((terms query).map f.term).map f.term = (terms query).map f.term := by
  rw [List.map_map]
  exact List.map_congr_left h

private theorem piece_write (hf : f.KeepsTerms) {query token : Text} (h : f.Settles query)
    (htoken : token ∈ tokens query) : f.piece (f.write token) = f.piece token := by
  by_cases hterm : isTerm token = true
  · have hwritten := (hf token (readsAsTerm_of_mem_tokens htoken hterm)).isTerm_eq
    have hsettled := h token (List.mem_filter.mpr ⟨htoken, hterm⟩)
    rw [write, if_pos hterm, piece_of_isTerm hwritten, piece_of_isTerm hterm, hsettled]
  · rw [write, if_neg hterm]

theorem formatAny_formatAny (hf : f.KeepsTerms) {query : Text} (h : f.Settles query) :
    f.formatAny (f.formatAny query) = f.formatAny query := by
  have hpieces : f.piecesAny (f.formatAny query) = f.piecesAny query := by
    rw [piecesAny_eq, piecesAny_eq, kept_formatAny hf, tokens_formatAny_eq hf, List.map_map]
    exact List.map_congr_left fun token htoken => piece_write hf h (mem_tokens_of_mem_kept htoken)
  rw [formatAny, hpieces, ← formatAny]

theorem tokens_formatAny_formatAll (hf : f.KeepsTerms) {query : Text} (h : f.Settles query) :
    tokens (f.formatAny (f.formatAll query)) = tokens (f.formatAll query) := by
  have hwrite : ∀ token ∈ tokens (f.formatAll query), f.write token = token := by
    intro token htoken
    unfold write
    split
    · next hterm =>
      have hmem : token ∈ (terms query).map f.term := by
        rw [← filter_tokens_formatAll hf]
        exact List.mem_filter.mpr ⟨htoken, hterm⟩
      obtain ⟨source, hsource, rfl⟩ := List.mem_map.mp hmem
      exact h source hsource
    · rfl
  rw [tokens_formatAny_eq hf, kept_formatAll hf]
  exact (List.map_congr_left hwrite).trans (List.map_id _)

theorem tokens_formatAll_formatAny (hf : f.KeepsTerms) {query : Text} (h : f.Settles query) :
    tokens (f.formatAll (f.formatAny query)) = tokens (f.formatAll query) := by
  apply tokens_formatAll_congr hf
  · rw [terms_formatAny hf, map_term_map_term h]
  · rw [links_tokens_formatAny hf]

theorem tokens_formatAll_formatAll (hf : f.KeepsTerms) {query : Text} (h : f.Settles query) :
    tokens (f.formatAll (f.formatAll query)) = tokens (f.formatAll query) := by
  apply tokens_formatAll_congr hf
  · rw [terms, filter_tokens_formatAll hf, map_term_map_term h]
  · rw [links_tokens_formatAll hf, List.map_map]
    exact List.map_congr_left fun ops _ => joint_joint ops

/-! ### Terms that need no escape -/

private theorem escapeTerm_eq_self {t : Text} (h : ∀ c ∈ t, needsEscape c = false) : escapeTerm t = t := by
  rw [escapeTerm_eq_escapeBy]
  induction t with
  | nil => rfl
  | cons c t ih =>
    obtain ⟨hc, ht⟩ := List.forall_mem_cons.mp h
    rw [escapeBy_cons_neg hc, ih ht]

/-- No small letter is reserved. -/
private theorem needsEscape_of_mem_lowercase {t : Text} (h : ∀ c ∈ t, needsEscape c = false) :
    ∀ c ∈ Text.lowercase t, needsEscape c = false := by
  intro c hc
  rw [← Bool.not_eq_true]
  intro hescape
  have hreserved : c ∈ reserved := by
    simp only [needsEscape, isReserved, Bool.and_eq_true, List.contains_iff_mem] at hescape
    exact hescape.1
  have hascii : (reserved.all fun d => !d.isLower && d.toNat < 0x80) = true := by decide
  have hc' := List.all_eq_true.mp hascii c hreserved
  rw [Bool.and_eq_true, Bool.not_eq_true', decide_eq_true_iff] at hc'
  obtain ⟨hlower, hlt⟩ := hc'
  rcases Text.mem_lowercase_cases hc with ⟨hmem, -⟩ | hletter | hafter
  · simp [h c hmem] at hescape
  · simp [hlower] at hletter
  · omega

theorem settles_of_bare {query : Text} (h : ∀ token ∈ terms query, ∀ c ∈ token, needsEscape c = false) :
    (f.withEscape escapeTerm).Settles query := by
  intro token htoken
  have hlower := needsEscape_of_mem_lowercase (h token htoken)
  have hterm : (f.withEscape escapeTerm).term token = Text.lowercase token := escapeTerm_eq_self hlower
  have hagain : (f.withEscape escapeTerm).term (Text.lowercase token)
      = escapeTerm (Text.lowercase (Text.lowercase token)) := rfl
  rw [hterm, hagain, Text.lowercase_lowercase, escapeTerm_eq_self hlower]

/-- If no term of a query holds a reserved character other than parentheses and stars, formatting the formatted query
in either mode, one of them joining terms, gives the tokens of the query whose terms are joined; and leaving
neighbouring terms to the backend twice gives the same text as once. -/
theorem formatted_twice (f : Formatter) (query : Text)
    (h : ∀ token ∈ terms query, ∀ c ∈ token, isReserved c = true → c ∈ userSyntax) :
    let any := (f.withEscape escapeTerm).formatAny
    let all := (f.withEscape escapeTerm).formatAll
    tokens (all (any query)) = tokens (all query) ∧ tokens (any (all query)) = tokens (all query) ∧
      tokens (all (all query)) = tokens (all query) ∧ any (any query) = any query := by
  intro any all
  have hf := keepsTerms_escapeTerm f
  have hsettles : (f.withEscape escapeTerm).Settles query := by
    refine settles_of_bare fun token htoken c hc => ?_
    cases hreserved : isReserved c with
    | false => simp [needsEscape, hreserved]
    | true => simp [needsEscape, hreserved, h token htoken c hc hreserved]
  exact ⟨tokens_formatAll_formatAny hf hsettles, tokens_formatAny_formatAll hf hsettles,
    tokens_formatAll_formatAll hf hsettles, formatAny_formatAny hf hsettles⟩

/-- A query with operators at both ends, with runs of operators and with two neighbouring terms.  The two modes differ
on it, but not any more once its terms are joined. -/
theorem formatted_twice_mixed_operators :
    let f : Formatter := ⟨escapeTerm, true, 100000⟩
    let query := "AND NOT Foo AND AND OR (Bar) baz* NOT".toList
    (∀ token ∈ terms query, ∀ c ∈ token, isReserved c = true → c ∈ userSyntax) ∧
      tokens (f.formatAll query)
        = ["foo".toList, "AND".toList, "OR".toList, "(bar)".toList, "AND".toList, "baz*".toList] ∧
      tokens (f.formatAny query) ≠ tokens (f.formatAll query) ∧
      tokens (f.formatAll (f.formatAny query)) = tokens (f.formatAll query) ∧
      tokens (f.formatAny (f.formatAll query)) = tokens (f.formatAll query) ∧
      tokens (f.formatAll (f.formatAll query)) = tokens (f.formatAll query) ∧
      f.formatAny (f.formatAny query) = f.formatAny query := by
  intro f query
  have hchecked :
      ((terms query).all fun token => token.all fun c => !isReserved c || userSyntax.contains c) = true := by
    decide +kernel
  have hbare : ∀ token ∈ terms query, ∀ c ∈ token, isReserved c = true → c ∈ userSyntax := by
    intro token htoken c hc hreserved
    have hkept := List.all_eq_true.mp (List.all_eq_true.mp hchecked token htoken) c hc
    simpa [hreserved] using hkept
  exact ⟨hbare, by decide +kernel, by decide +kernel, formatted_twice f query hbare⟩

end Formatter

end SourceIndex.Query
