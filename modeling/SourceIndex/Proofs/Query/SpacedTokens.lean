import SourceIndex.Proofs.Query.FormattedTwice

/-!
# A formatted query as a list of tokens

Every piece of a query is written with a space on either side, so that two spaces are left between neighbouring tokens
once those at the ends are trimmed away (`trimSpaces_flatMap_pad`).  A query whose neighbouring terms are left to the
backend is written like that from its tokens without the operators that have nothing to apply to, and they can be read
off again (`formatAny_spaced`).
-/

namespace SourceIndex

namespace Text

/-- A word with a space on either side. -/
def pad (word : Text) : Text := ' ' :: word ++ [' ']

private theorem flatMap_pad {word : Text} {words : List Text} :
    (word :: words).flatMap pad = ' ' :: ([' ', ' '].intercalate (word :: words) ++ [' ']) := by
  induction words generalizing word with
  | nil => simp [pad]
  | cons next words ih =>
    rw [List.flatMap_cons, ih, List.intercalate_cons_cons]
    simp [pad]

private theorem head?_intercalate {separator word : Text} {words : List Text} (hne : word ≠ []) :
    (separator.intercalate (word :: words)).head? = word.head? := by
  cases words with
  | nil => simp
  | cons next words => rw [List.intercalate_cons_cons, List.append_assoc, List.head?_append_of_ne_nil _ hne]

private theorem getLast?_intercalate {separator word : Text} {words : List Text} (hne : ∀ w ∈ word :: words, w ≠ []) :
    ∃ last ∈ word :: words, (separator.intercalate (word :: words)).getLast? = last.getLast? := by
  induction words generalizing word with
  | nil => exact ⟨word, List.mem_singleton_self word, by simp⟩
  | cons next words ih =>
    obtain ⟨last, hmem, hlast⟩ := ih fun w hw => hne w (List.mem_cons_of_mem word hw)
    refine ⟨last, List.mem_cons_of_mem word hmem, ?_⟩
    obtain ⟨c, hc⟩ := Option.isSome_iff_exists.mp (List.getLast?_isSome.mpr (hne last (List.mem_cons_of_mem word hmem)))
    rw [List.intercalate_cons_cons, List.getLast?_append, hlast, hc, Option.some_or]

private theorem trimSpaces_pad {t : Text} (hhead : t.head? ≠ some ' ') (hlast : t.getLast? ≠ some ' ') (hne : t ≠ []) :
    trimSpaces (pad t) = t := by
  obtain ⟨c, rest, rfl⟩ := List.exists_cons_of_ne_nil hne
  have htrim : trimSpaces (pad (c :: rest)) = ((pad (c :: rest)).dropWhile (· == ' ')).rdropWhile (· == ' ') := rfl
  have hc : ¬ (c == ' ') = true := by simpa using hhead
  have hfront : (pad (c :: rest)).dropWhile (· == ' ') = c :: rest ++ [' '] := by
    rw [pad, List.cons_append, List.dropWhile_cons_of_pos rfl]
    exact List.dropWhile_cons_of_neg hc
  rw [htrim, hfront, List.rdropWhile_concat_pos _ _ _ rfl, List.rdropWhile_eq_self_iff]
  intro hcons hspace
  rw [List.getLast?_eq_some_getLast hcons, beq_iff_eq.mp hspace] at hlast
  exact hlast rfl

/-- Between words without spaces at their ends, two spaces are left. -/
theorem trimSpaces_flatMap_pad {words : List Text} (hne : ∀ word ∈ words, word ≠ [])
    (hspace : ∀ word ∈ words, ' ' ∉ word) : trimSpaces (words.flatMap pad) = [' ', ' '].intercalate words := by
  cases words with
  | nil => rfl
  | cons word words =>
    rw [flatMap_pad]
    obtain ⟨last, hmem, hlast⟩ := @getLast?_intercalate [' ', ' '] word words hne
    have hhead := @head?_intercalate [' ', ' '] word words (hne word List.mem_cons_self)
    apply trimSpaces_pad
    · rw [hhead]
      exact fun h => hspace word List.mem_cons_self (List.mem_of_head? h)
    · rw [hlast]
      exact fun h => hspace last hmem (List.mem_of_getLast? h)
    · intro hnil
      rw [hnil, List.head?_nil, eq_comm, List.head?_eq_none_iff] at hhead
      exact hne word List.mem_cons_self hhead

end Text

namespace Query

private theorem dropWhile_map_of_forall {ts : List Text} {p : Text → Bool} {write : Text → Text}
    (h : ∀ token ∈ ts, p (write token) = p token) : (ts.map write).dropWhile p = (ts.dropWhile p).map write := by
  induction ts with
  | nil => rfl
  | cons token ts ih =>
    obtain ⟨htoken, hts⟩ := List.forall_mem_cons.mp h
    rw [List.map_cons, List.dropWhile_cons, List.dropWhile_cons, htoken, ih hts]
    split <;> rfl

namespace Formatter

variable {f : Formatter}

theorem render_piece (f : Formatter) (token : Text) : (f.piece token).render = Text.pad (f.write token) := by
  by_cases hterm : isTerm token = true
  · rw [piece_of_isTerm hterm, write, if_pos hterm]
    rfl
  · obtain ⟨op, rfl⟩ := isTerm_eq_false_iff.mp (by simpa using hterm)
    rw [piece_word, write, if_neg hterm]
    rfl

theorem formatAny_eq_intercalate (hf : f.KeepsTerms) (query : Text) :
    f.formatAny query = [' ', ' '].intercalate ((kept query).map f.write) := by
  have hfree : ∀ word ∈ (kept query).map f.write, word ∈ tokens (f.formatAny query) := by
    intro word hword
    rwa [tokens_formatAny_eq hf]
  rw [formatAny, piecesAny_eq, List.flatMap_map, ← Text.trimSpaces_flatMap_pad, List.flatMap_map]
  · simp only [render_piece]
  · exact fun word hword => ne_nil_of_mem_tokens (hfree word hword)
  · intro word hword hspace
    have hseparator := not_isSeparator_of_mem_tokens (hfree word hword) ' ' hspace
    exact absurd hseparator (by decide)

private theorem needsLeft_of_isTerm {token : Text} (h : isTerm token = true) : needsLeft token = false := by
  rw [← Bool.not_eq_true]
  intro hleft
  rw [isTerm_of_needsLeft hleft] at h
  exact Bool.noConfusion h

theorem needsLeft_write (hf : f.KeepsTerms) {query token : Text} (h : token ∈ tokens query) :
    needsLeft (f.write token) = needsLeft token := by
  by_cases hterm : isTerm token = true
  · have hwritten : isTerm (f.write token) = true := (isTerm_write hf h).trans hterm
    rw [needsLeft_of_isTerm hwritten, needsLeft_of_isTerm hterm]
  · rw [write, if_neg hterm]

/-- What is dropped does not depend on how terms are written. -/
theorem map_write_kept (hf : f.KeepsTerms) (query : Text) :
    (kept query).map f.write
      = (((tokens query).map f.write).dropWhile needsLeft).rdropWhile fun token => !isTerm token := by
  have hlast : ∀ token ∈ ((tokens query).dropWhile needsLeft).reverse,
      (!isTerm (f.write token)) = !isTerm token := by
    intro token htoken
    have hmem := (List.dropWhile_sublist needsLeft).subset (List.mem_reverse.mp htoken)
    rw [isTerm_write hf hmem]
  rw [kept, dropWhile_map_of_forall fun token htoken => needsLeft_write hf htoken, List.rdropWhile, List.rdropWhile,
    ← List.map_reverse, dropWhile_map_of_forall hlast, List.map_reverse]

/-- A query whose neighbouring terms are left to the backend is formatted as its tokens with two spaces between them,
where terms are lowercased and escaped, and first the longest front of `AND`s and `OR`s is dropped and then the longest
end of operators.  These are again the tokens of the formatted query.  They hold every term of the query and the
operators between its terms as they are written; the first is neither `AND` nor `OR`, and the last is a term. -/
theorem formatAny_spaced (f : Formatter) (query : Text) :
    let write := fun token => if isTerm token then escapeTerm (Text.lowercase token) else token
    let written := (((tokens query).map write).dropWhile fun token =>
      token == Operator.and.word || token == Operator.or.word).rdropWhile fun token => !isTerm token
    let output := (f.withEscape escapeTerm).formatAny query
    output = [' ', ' '].intercalate written ∧ tokens output = written ∧
      written.filter isTerm = (terms query).map (fun token => escapeTerm (Text.lowercase token)) ∧
      links written = links (tokens query) ∧
      (∀ token ∈ written.head?, token ≠ Operator.and.word ∧ token ≠ Operator.or.word) ∧
      ∀ token ∈ written.getLast?, isTerm token = true := by
  intro write written output
  have hf := keepsTerms_escapeTerm f
  have hwritten : (kept query).map (f.withEscape escapeTerm).write = written := map_write_kept hf query
  have htokens : tokens output = written := (tokens_formatAny_eq hf query).trans hwritten
  refine ⟨(formatAny_eq_intercalate hf query).trans (congrArg _ hwritten), htokens, ?_, ?_, ?_, ?_⟩
  · rw [← htokens]
    exact terms_formatAny hf query
  · rw [← htokens]
    exact links_tokens_formatAny hf query
  · intro token htoken
    rw [← htokens, ← kept_formatAny hf] at htoken
    have hleft := needsLeft_head_kept htoken
    simpa [needsLeft] using hleft
  · intro token htoken
    rw [← htokens, ← kept_formatAny hf] at htoken
    exact isTerm_getLast_kept htoken

example :
    (Formatter.mk escapeTerm false 0).formatAny "AND OR NOT Foo\tBar? or  OR NOT baz:1 NOT AND".toList
      = "NOT  foo  bar\\?  or  OR  NOT  baz\\:1".toList := by
  decide +kernel

end Formatter

end Query

end SourceIndex
