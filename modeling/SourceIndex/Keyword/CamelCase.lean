import SourceIndex.Text.Clip

/-!
# Camel-case identifiers

Splits identifiers such as `openTheFile` into the words they are made of, so that each becomes searchable.  Only a
compound is split: a word of at least seven ASCII letters and digits, without two capitals in a row, which has a
capital past its first character.  A word that was cut at the limit ends in capitals, so it is no compound.
-/

namespace SourceIndex.CamelCase

/-- The shortest word that is split. -/
def minLength : Nat := 7

/-- Whether two capitals stand next to each other, as in an acronym. -/
def hasAcronym : Text → Bool
  | a :: b :: rest => (a.isUpper && b.isUpper) || hasAcronym (b :: rest)
  | _ => false

/-- Cuts a word before each capital past its first character. -/
def pieces (word : Text) : List Text := word.splitBy fun _ c => !c.isUpper

/-- Whether a word is long enough, holds no acronym and has more than one piece. -/
def isCompound (word : Text) : Bool :=
  minLength ≤ word.length && !hasAcronym word && 1 < (pieces word).length

/-- The words of a content: its runs of ASCII letters and digits, and empty words between separators. -/
def words (limit : Nat) (content : Text) : List Text :=
  (Text.clip limit (content.map Text.alphanumericOrSpace)).splitOn ' '

/-- The pieces of the compounds among the first `limit` characters of a content, each after a space. -/
def expand (limit : Nat) (content : Text) : Text :=
  Text.spaced (((words limit content).filter isCompound).flatMap pieces)

example : expand 100 "net.SocketReader(openTheFile)".toList = " Socket Reader open The File".toList := by
  decide +kernel

/-- The cut word is no compound, although what is left of it would be one. -/
example : expand 8 "lastOrder".toList = [] ∧ expand 8 "lastOrde".toList = " last Orde".toList := by decide +kernel

end SourceIndex.CamelCase
