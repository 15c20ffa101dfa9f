import SourceIndex.Json.Library
import SourceIndex.Json.Reader
import SourceIndex.Json.Writer

/-!
# A plain library

A library that writes values without white space and reads strict JSON.  A record is read from an object in which each
of its fields stands exactly once; it is also read from an array of the fields in their order.
-/

namespace SourceIndex.Json

/-! ### Values of fields -/

/-- The text which a value is. -/
def toText? : Json → Option Text
  | .text content => content
  | _ => none

/-- The truth value which a value is. -/
def toTruth? : Json → Option Bool
  | .truth b => some b
  | _ => none

/-- The word of 64 bits which a value is. -/
def toWord? : Json → Option UInt64
  | .integer n => if 0 ≤ n && n < UInt64.size then some (.ofNat n.toNat) else none
  | _ => none

/-- The signed word of 64 bits which a value is. -/
def toSignedWord? : Json → Option Int64
  | .integer n => if Int64.minValue.toInt ≤ n && n ≤ Int64.maxValue.toInt then some (.ofInt n) else none
  | _ => none

/-- The list which a value is, given what its items are. -/
def toList? {α : Type} (item? : Json → Option α) : Json → Option (List α)
  | .array items => items.mapM item?
  | _ => none

/-- The value of the one member with the given key. -/
def member? (members : List (Option Text × Json)) (key : Text) : Option Json :=
  match members.filter fun member => member.1 = some key with
  | [(_, value)] => some value
  | _ => none

/-- The values of the fields of a record, in the order of their keys. -/
def fields? (keys : List Text) : Json → Option (List Json)
  | .array items => if items.length = keys.length then some items else none
  | .object members => if members.all (·.1.isSome) then keys.mapM (member? members) else none
  | _ => none

/-! ### Values of any kind -/

mutual

/-- The JSON value of a value. -/
def Kind.encode : (kind : Kind) → kind.Value → Json
  | .truth, b => .truth b
  | .word, n => .integer (UInt64.toNat n)
  | .signedWord, n => .integer (Int64.toInt n)
  | .text, t => .text (some t)
  | .list item, xs => .array (List.map item.encode xs)
  | .record fields, xs => .object (fields.encode xs)

/-- The members of the object for the values of some fields. -/
def Fields.encode : (fields : Fields) → fields.Values → List (Option Text × Json)
  | .nil, _ => []
  | .cons key kind rest, (x, xs) => (some key, kind.encode x) :: rest.encode xs

end

mutual

/-- The value which a JSON value stands for. -/
def Kind.decode? : (kind : Kind) → Json → Option kind.Value
  | .truth, j => j.toTruth?
  | .word, j => j.toWord?
  | .signedWord, j => j.toSignedWord?
  | .text, j => j.toText?
  | .list item, j => j.toList? item.decode?
  | .record fields, j => (j.fields? fields.keys).bind fields.decode?

/-- The values which the JSON values of some fields stand for. -/
def Fields.decode? : (fields : Fields) → List Json → Option fields.Values
  | .nil, [] => some ()
  | .cons _ kind rest, j :: js => (kind.decode? j).bind fun x => (rest.decode? js).map fun xs => (x, xs)
  | _, _ => none

end

/-- The library that writes values without white space and reads strict JSON. -/
def plain : Library := ⟨render, parse?, Kind.encode, Kind.decode?⟩

end SourceIndex.Json
