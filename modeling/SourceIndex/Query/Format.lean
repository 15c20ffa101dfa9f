import SourceIndex.Query.Escape
import SourceIndex.Query.Token
import SourceIndex.Text.Lowercase

/-!
# Formatting queries

Turns what a user typed into a boolean query for the search backend.  Terms are lowercased and escaped, operators
stand as written.  Two terms next to each other either both have to match, and an `AND` is put between them
(`Formatter.formatAll`), or are left to the backend, which takes either (`Formatter.formatAny`).  Operators with
nothing to apply to are dropped.
-/

namespace SourceIndex.Query

/-- One item of a formatted query. -/
inductive Piece where
  | operator (op : Operator)
  | term (text : Text)
  /-- A term which an `AND` that the user did not write joins to the term before it. -/
  | joined (text : Text)
deriving DecidableEq

namespace Piece

/-- Whether the piece is an operator. -/
def isOperator : Piece → Bool
  | .operator _ => true
  | _ => false

/-- Whether the piece is an operator that needs something before it. -/
def needsLeft : Piece → Bool
  | .operator .and => true
  | .operator .or => true
  | _ => false

/-- The text of a piece, set apart by spaces. -/
def render : Piece → Text
  | .operator op => ' ' :: op.word ++ [' ']
  | .term text => ' ' :: text ++ [' ']
  | .joined text => ' ' :: Operator.and.word ++ ' ' :: text ++ [' ']

end Piece

/-- The pieces without the operators at the end. -/
def dropTrailingOperators (pieces : List Piece) : List Piece :=
  (pieces.reverse.dropWhile Piece.isOperator).reverse

/-- How queries are formatted. -/
structure Formatter where
  /-- Makes a lowercase term harmless for the backend. -/
  escape : Text → Text
  /-- Whether terms next to each other all have to match. -/
  matchAll : Bool
  /-- How many characters of a query are searched for camel-case words. -/
  splitLimit : Nat

namespace Formatter

/-- The text of a term in a formatted query. -/
def term (f : Formatter) (token : Text) : Text := f.escape (Text.lowercase token)

/-- The piece of a token that nothing is known about. -/
def piece (f : Formatter) (token : Text) : Piece :=
  match Operator.ofWord? token with
  | some op => .operator op
  | none => .term (f.term token)

/-- The pieces of a query whose neighbouring terms are left to the backend: operators are kept as written, but those
at the end and the `AND`s and `OR`s at the beginning are dropped. -/
def piecesAny (f : Formatter) (query : Text) : List Piece :=
  dropTrailingOperators (((tokens query).map f.piece).dropWhile Piece.needsLeft)

/-- Formats a query and leaves neighbouring terms to the backend. -/
def formatAny (f : Formatter) (query : Text) : Text :=
  Text.trimSpaces ((f.piecesAny query).flatMap Piece.render)

/-- Puts the piece of a token before the pieces read so far, the last one first.  An operator is dropped at the
beginning and after itself; a term right after a term is joined to it. -/
def push (f : Formatter) (done : List Piece) (token : Text) : List Piece :=
  match Operator.ofWord? token, done with
  | some _, [] => []
  | some op, last :: before => if last = .operator op then last :: before else .operator op :: last :: before
  | none, [] => [.term (f.term token)]
  | none, last :: before =>
    (if last.isOperator then .term (f.term token) else .joined (f.term token)) :: last :: before

/-- The pieces of a query all of whose neighbouring terms have to match: runs of one operator become that operator,
and operators at the beginning and at the end are dropped. -/
def piecesAll (f : Formatter) (query : Text) : List Piece :=
  dropTrailingOperators ((tokens query).foldl f.push []).reverse

/-- Formats a query and joins neighbouring terms by `AND`. -/
def formatAll (f : Formatter) (query : Text) : Text :=
  Text.trimSpaces ([' '].intercalate ((f.piecesAll query).map Piece.render))

/-- Formats a query in the mode of the formatter. -/
def format (f : Formatter) (query : Text) : Text := if f.matchAll then f.formatAll query else f.formatAny query

end Formatter

end SourceIndex.Query
