import SourceIndex.Spelling.Dictionary

/-!
# Learning from content

The words of a content that a dictionary learns.  The content is cut at a limit, everything but ASCII letters and
digits separates words, and only so many pieces between separators are looked at, empty ones included.
-/

namespace SourceIndex

namespace Learning

/-- How many pieces of a content are looked at. -/
def maxPieces : Nat := 10000

/-- The shortest word that is learned. -/
def minLength : Nat := 3

/-- The pieces between the separators of a content, in small letters. -/
def pieces (limit : Nat) (content : Text) : List Text :=
  ((content.take limit).map fun c => (Text.alphanumericOrSpace c).toLower).splitOn ' '

/-- The words learned from a content, in order. -/
def words (limit : Nat) (content : Text) : List Text :=
  ((pieces limit content).take maxPieces).filter fun word => minLength ≤ word.length

end Learning

/-- The dictionary after a record of each word learned from a content. -/
def Dictionary.learn (d : Dictionary) (limit : Nat) (content : Text) : Dictionary :=
  d.recordAll (Learning.words limit content)

end SourceIndex
