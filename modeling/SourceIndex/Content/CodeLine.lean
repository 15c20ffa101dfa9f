import SourceIndex.Text.Basic

/-!
# Lines of code

A crude count of the lines that hold code, which needs no knowledge of the language, and the languages whose
estimated cost is not worth showing.
-/

namespace SourceIndex.CodeLine

/-- The beginnings of a line of comment or markup. -/
def commentMarks : List Text :=
  [['/', '/'], ['#'], ['<', '!', '-', '-'], ['!', '*'], ['-', '-'], ['%'], [';'], ['*'], ['/', '*']]

/-- Whether a line, without the blanks at its ends, is not empty and begins like no comment. -/
def isCode (line : Text) : Bool :=
  let trimmed := Text.trimBlanks line
  !trimmed.isEmpty && !commentMarks.any (·.isPrefixOf trimmed)

/-- The number of lines of code. -/
def count (lines : List Text) : Nat := lines.countP isCode

/-- The languages for which no cost is shown. -/
def costlessLanguages : List Text :=
  ["Unknown", "Text", "JSON", "Markdown", "INI File", "ReStructuredText", "Configuration"].map String.toList

/-- Whether the cost of a language is hidden. -/
def hidesCost (language : Text) : Bool := costlessLanguages.contains language

end SourceIndex.CodeLine
