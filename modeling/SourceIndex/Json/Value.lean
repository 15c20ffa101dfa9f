import SourceIndex.Text.Basic

/-!
# JSON values

A JSON value as far as records need it.  A number that is not written as an integer keeps no value, and neither does
a text whose escapes stand for half a character, since no field of a record accepts either.
-/

namespace SourceIndex

/-- A JSON value. -/
inductive Json where
  | null
  | truth (b : Bool)
  | integer (n : Int)
  /-- A number that is not written as an integer. -/
  | fraction
  /-- A text, or none if an escape stands for half a character only. -/
  | text (content : Option Text)
  | array (items : List Json)
  /-- An object with its members as they are written, even those with the same key. -/
  | object (members : List (Option Text × Json))

end SourceIndex
