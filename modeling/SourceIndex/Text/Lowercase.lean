import SourceIndex.Text.Basic
import SourceIndex.Text.Lowercase.Table

/-!
# Lowercase

Full Unicode lowercasing.  Two capitals have no single small letter: the dotted I becomes an i and a combining dot,
and the sigma becomes a final sigma at the end of a word.  A sigma ends a word if a cased letter comes before it and
none after it, where the characters that are ignorable for case are looked through on both sides.
-/

namespace SourceIndex.Text

namespace Lowercase

/-- Whether the character is a letter with case. -/
def isCased (c : Char) : Bool := casedRanges.any fun (first, last) => first ≤ c.toNat && c.toNat ≤ last

/-- Whether the character is looked through in the search for a letter with case. -/
def isIgnorable (c : Char) : Bool := ignorableRanges.any fun (first, last) => first ≤ c.toNat && c.toNat ≤ last

/-- Whether the first character that is not looked through is a letter with case. -/
def startsCased (t : Text) : Bool := (t.dropWhile isIgnorable).head?.any isCased

/-- The one small letter of a capital, and any other character itself. -/
def simple (c : Char) : Char :=
  match capitals.findSome? (·.lower? c.toNat) with
  | some code => Char.ofNat code
  | none => c

/-- The lowercase form of a character, given whether a cased letter stands before it and the text after it. -/
def expand (casedBefore : Bool) (c : Char) (rest : Text) : Text :=
  if c = 'İ' then ['i', '\u0307']
  else if c = 'Σ' then (if casedBefore && !startsCased rest then ['ς'] else ['σ'])
  else [simple c]

/-- Lowercases a text that follows a cased letter or does not. -/
def run (casedBefore : Bool) : Text → Text
  | [] => []
  | c :: rest =>
    expand casedBefore c rest ++ run (if isIgnorable c then casedBefore else isCased c) rest

end Lowercase

/-- The lowercase form of a text. -/
def lowercase (t : Text) : Text := Lowercase.run false t

@[simp] theorem lowercase_nil : lowercase [] = [] := rfl

end SourceIndex.Text
