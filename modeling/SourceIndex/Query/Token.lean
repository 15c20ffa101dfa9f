import SourceIndex.Text.Basic

/-!
# Query tokens

A query is cut at ASCII white space.  The tokens `AND`, `OR` and `NOT`, in capitals, are operators; every other
token is a term.  Everything about the tokens of a longer query follows from `tokens_append_cons`, which cuts it at a
separator, and `tokens_of_forall`, which says that what holds no separator is one token.
-/

namespace SourceIndex.Query

/-- The boolean operators which a user may write. -/
inductive Operator where
  | and
  | or
  | not
deriving DecidableEq

/-- The token of an operator. -/
def Operator.word : Operator → Text
  | .and => ['A', 'N', 'D']
  | .or => ['O', 'R']
  | .not => ['N', 'O', 'T']

/-- The operator which a token stands for, if any. -/
def Operator.ofWord? (token : Text) : Option Operator :=
  if token = Operator.and.word then some .and
  else if token = Operator.or.word then some .or
  else if token = Operator.not.word then some .not
  else none

theorem Operator.ofWord?_word (op : Operator) : Operator.ofWord? op.word = some op := by
  cases op <;> decide

theorem Operator.ofWord?_eq_some_iff {token : Text} {op : Operator} :
    Operator.ofWord? token = some op ↔ token = op.word := by
  constructor
  · intro h
    unfold Operator.ofWord? at h
    split at h
    · simp_all
    · split at h
      · simp_all
      · split at h <;> simp_all
  · rintro rfl
    exact Operator.ofWord?_word op

/-- The characters between tokens: space, tab, line feed, vertical tab, form feed and carriage return. -/
def isSeparator (c : Char) : Bool := [' ', '\t', '\n', '\x0b', '\x0c', '\r'].contains c

/-- The tokens of a query, none of them empty. -/
def tokens (query : Text) : List Text := (query.splitOnP isSeparator).filter fun token => !token.isEmpty

/-! ### Tokens of a query -/

theorem ne_nil_of_mem_tokens {query token : Text} (h : token ∈ tokens query) : token ≠ [] := by
  have := (List.mem_filter.mp h).2
  rintro rfl
  simp at this

private theorem free_of_mem_splitOnPPrepend {p : Char → Bool} {t done word : Text}
    (hdone : ∀ c ∈ done, p c = false) (h : word ∈ t.splitOnPPrepend p done) : ∀ c ∈ word, p c = false := by
  fun_induction List.splitOnPPrepend p t done with
  | case1 done =>
    rw [List.mem_singleton.mp h]
    simpa using hdone
  | case2 done c rest hc ih =>
    rcases List.mem_cons.mp h with rfl | h
    · simpa using hdone
    · exact ih (by simp) h
  | case3 done c rest hc ih =>
    refine ih (fun x hx => ?_) h
    rcases List.mem_cons.mp hx with rfl | hx
    · simpa using hc
    · exact hdone x hx

theorem not_isSeparator_of_mem_tokens {query token : Text} (h : token ∈ tokens query) :
    ∀ c ∈ token, isSeparator c = false :=
  free_of_mem_splitOnPPrepend (by simp) (List.mem_filter.mp h).1

/-- A separator ends the tokens before it and begins those after it. -/
theorem tokens_append_cons {c : Char} (hc : isSeparator c = true) (left right : Text) :
    tokens (left ++ c :: right) = tokens left ++ tokens right := by
  unfold tokens
  rw [List.splitOnP_append_cons left right hc, List.filter_append]

/-- A text without a separator is one token, unless it is empty. -/
theorem tokens_of_forall {token : Text} (h : ∀ c ∈ token, isSeparator c = false) (hne : token ≠ []) :
    tokens token = [token] := by
  unfold tokens
  rw [List.splitOnP_eq_singleton h]
  simp [hne]

end SourceIndex.Query
