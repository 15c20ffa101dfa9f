import SourceIndex.Keyword.CamelCase
import SourceIndex.Query.Format
import SourceIndex.Text.Whitespace

/-!
# Fallback queries

When a query finds little, looser queries are tried in its place.  Six candidates are built from it in a fixed
order; those that are empty, the same as the query or the same as an earlier one are left out.
-/

namespace SourceIndex.Query.Fallback

/-- The query without blanks at its ends and with single spaces inside. -/
def tidy (query : Text) : Text := Text.squeezeSpaces (Text.trimBlanks query)

/-- A looser query, which counts as the same as the query it comes from either exactly or regardless of case. -/
structure Candidate where
  text : Text
  caseless : Bool

/-- Whether a candidate says nothing new about a query. -/
def Candidate.repeats (candidate : Candidate) (query : Text) : Bool :=
  if candidate.caseless then Text.lowercase candidate.text == Text.lowercase query else candidate.text == query

/-- The query with spaces in place of everything but ASCII letters and digits. -/
def withoutPunctuation (query : Text) : Text :=
  Text.squeezeSpaces (Text.trimWhitespace (query.map Text.alphanumericOrSpace))

/-- The words of the camel-case identifiers in a query. -/
def camelCaseWords (limit : Nat) (query : Text) : Text := Text.trimWhitespace (CamelCase.expand limit query)

/-- The words of a query but its operators, each corrected. -/
def corrected (correct : Text → Text) (query : Text) : Text :=
  let words := (query.splitOn ' ').filter fun word => (Operator.ofWord? (Text.trimWhitespace word)).isNone
  Text.trimWhitespace ([' '].intercalate (words.map correct))

/-- An operator between two words of a query, with the spaces around it. -/
def between (op : Operator) : Text := ' ' :: op.word ++ [' ']

/-- The looser forms of a tidy query, from the closest to the loosest. -/
def candidates (limit : Nat) (correct : Text → Text) (query : Text) : List Candidate :=
  [⟨withoutPunctuation query, false⟩,
   ⟨camelCaseWords limit query, false⟩,
   ⟨corrected correct query, true⟩,
   ⟨Text.replaceAll (between .and) (between .or) query, true⟩,
   ⟨Text.replaceAll (between .and) [' '] query, true⟩,
   ⟨Text.replaceAll (between .not) [' '] query, true⟩]

/-- Appends a candidate to the alternatives found so far, unless it is empty, repeats the query or was found. -/
def offer (query : Text) (found : List Text) (candidate : Candidate) : List Text :=
  if candidate.text.isEmpty || candidate.repeats query || found.contains candidate.text then found
  else found ++ [candidate.text]

end Fallback

/-- The looser queries to try in place of a query, given how a word is corrected. -/
def Formatter.alternatives (f : Formatter) (correct : Text → Text) (query : Text) : List Text :=
  let query := Fallback.tidy query
  (Fallback.candidates f.splitLimit correct query).foldl (Fallback.offer query) []

end SourceIndex.Query
