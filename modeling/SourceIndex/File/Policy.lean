import SourceIndex.File.Finding
import SourceIndex.File.Language
import SourceIndex.Numeric.Binary64
import SourceIndex.Settings.Basic
import SourceIndex.Text.Units

/-!
# Which files are indexed

Decides from the name and the lines of a file whether it is binary or minified.  An extension on the whitelist beats
one on the blacklist, which beats one of a known language; only if none applies does the content decide, by its share
of ASCII.  A file counts as minified if its lines are too long on average.
-/

namespace SourceIndex

/-- What decides about files.  The lists hold extensions in the spelling in which they are compared. -/
structure Policy where
  whitelist : List Text
  blacklist : List Text
  known : List Text
  guessBinary : Bool
  minifiedLength : Nat

namespace Policy

/-- The policy of settings and the languages that are known. -/
def ofSettings (settings : Settings) (languages : List Language) : Policy where
  whitelist := Extension.normalizeAll settings.whitelist
  blacklist := Extension.normalizeAll settings.blacklist
  known := Extension.normalizeAll (languages.flatMap Language.extensions)
  guessBinary := settings.guessBinary
  minifiedLength := settings.minifiedLength

/-! ### Binary files -/

/-- How many lines are examined. -/
def maxExaminedLines : Nat := 10000

/-- The least share of ASCII in a file that is not binary. -/
def minAsciiShare : Binary64 := .ofRat (3 / 10)

/-- Whether a character counts as ASCII here, which takes in U+0080. -/
def countsAsAscii (c : Char) : Bool := c.toNat ≤ 0x80

/-- The number of code units of the examined lines that count as ASCII. -/
def asciiUnits (lines : List Text) : Nat :=
  Text.countUnits countsAsAscii (lines.take maxExaminedLines).flatten

/-- The number of code units of the examined lines that do not count as ASCII. -/
def otherUnits (lines : List Text) : Nat :=
  Text.countUnits (fun c => !countsAsAscii c) (lines.take maxExaminedLines).flatten

/-- What a number of ASCII units and a number of others say about a file. -/
def groundOfUnits (ascii other : Nat) : Ground :=
  if other = 0 then .enoughAscii
  else if ascii = 0 then .noAscii
  else if (Binary64.ofNat ascii / .ofNat (ascii + other)).less minAsciiShare then .littleAscii
  else .enoughAscii

/-- The ground on which a file with the given name and lines is taken for binary or not. -/
def ground (p : Policy) (name : Text) (lines : List Text) : Ground :=
  let name := Text.lowercase name
  if lines.isEmpty then .emptyFile
  else if Extension.hasAny p.whitelist name then .whitelisted
  else if Extension.hasAny p.blacklist name then .blacklisted
  else if Extension.hasAny p.known name then .knownLanguage
  else if !p.guessBinary then .unexamined
  else groundOfUnits (asciiUnits lines) (otherUnits lines)

/-- The finding for a file with the given name and lines. -/
def finding (p : Policy) (name : Text) (lines : List Text) : Finding := (p.ground name lines).finding

/-! ### Minified files -/

/-- The length of a line, without the blanks at its ends and the spaces inside. -/
def lineLength (line : Text) : Nat := (Text.trimBlanks line).countP (· != ' ')

/-- The length of all lines of a file together. -/
def totalLength (lines : List Text) : Nat := lines.foldl (fun total line => total + lineLength line) 0

/-- Whether the average length of the lines of a file exceeds a limit, unless its name is on the whitelist. -/
def isMinifiedAt (p : Policy) (limit : Nat) (name : Text) (lines : List Text) : Bool :=
  if lines.isEmpty || Extension.hasAny p.whitelist (Text.lowercase name) then false
  else (Binary64.ofNat limit).less (.ofNat (totalLength lines) / .ofNat lines.length)

/-- Whether a file counts as minified. -/
def isMinified (p : Policy) (name : Text) (lines : List Text) : Bool := p.isMinifiedAt p.minifiedLength name lines

end Policy

end SourceIndex
