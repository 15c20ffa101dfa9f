import SourceIndex.Text.Basic

/-!
# Symbols

The characters that are no part of a word, which makes runs of operators searchable.
-/

namespace SourceIndex.Symbol

/-- Whether the character belongs to a word: an ASCII letter or digit or the underscore. -/
def isWordChar (c : Char) : Bool := c.isAlphanum || c == '_'

/-- The characters of a content that belong to no word, each with a space after it. -/
def extract (content : Text) : Text :=
  (content.filter fun c => !isWordChar c).flatMap fun c => [c, ' ']

end SourceIndex.Symbol
