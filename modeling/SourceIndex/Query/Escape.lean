import SourceIndex.Text.Replace

/-!
# Escaping

The search backend reads some characters of a term as syntax.  A backslash makes the character after it literal.
`escape` puts a backslash before every reserved character, `escapeTerm` leaves grouping parentheses and the star
alone, and `unescape` is the backend's reading.  Reading what `escape` wrote gives the term back (`unescape_escape`).
-/

namespace SourceIndex.Query

/-- The characters which the backend takes for syntax. -/
def reserved : List Char :=
  ['\\', '+', '-', '!', '(', ')', ':', '^', '[', ']', '"', '{', '}', '~', '*', '?', '|', '&', '/']

/-- Whether the backend takes a character for syntax. -/
def isReserved (c : Char) : Bool := reserved.contains c

/-- The term with a backslash before every reserved character. -/
def escape (term : Text) : Text := term.flatMap fun c => if isReserved c then ['\\', c] else [c]

/-- The term as the backend reads it; a backslash at the very end is dropped. -/
def unescape : Text → Text
  | [] => []
  | ['\\'] => []
  | '\\' :: c :: rest => c :: unescape rest
  | c :: rest => c :: unescape rest

/-- The term with a backslash before every reserved character but parentheses and stars, which a user may mean. -/
def escapeTerm (term : Text) : Text :=
  Text.replaceAll ['\\', '*'] ['*']
    (Text.replaceAll ['\\', ')'] [')']
      (Text.replaceAll ['\\', '('] ['('] (escape term)))

@[simp] theorem escape_nil : escape [] = [] := rfl

theorem escape_cons (c : Char) (term : Text) :
    escape (c :: term) = (if isReserved c then ['\\', c] else [c]) ++ escape term := by
  simp [escape]

@[simp] theorem unescape_nil : unescape [] = [] := rfl

@[simp] theorem unescape_backslash (c : Char) (rest : Text) : unescape ('\\' :: c :: rest) = c :: unescape rest := rfl

theorem unescape_cons {c : Char} (h : c ≠ '\\') (rest : Text) : unescape (c :: rest) = c :: unescape rest := by
  simp [unescape, h]

theorem unescape_escape (term : Text) : unescape (escape term) = term := by
  induction term with
  | nil => rfl
  | cons c term ih =>
    rw [escape_cons]
    split
    · simp [ih]
    · have hc : c ≠ '\\' := by
        rintro rfl
        exact absurd (by decide) ‹¬ isReserved '\\' = true›
      rw [List.singleton_append, unescape_cons hc, ih]

end SourceIndex.Query
