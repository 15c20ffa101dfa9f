import SourceIndex.Json.Value

/-!
# Records and the library that exchanges them

A record is told by its fields, each with a key and a kind of value.  Writing values and reading them back is left to a
library for JSON, which may be any that is lawful (`Library.Lawful`).  Its laws speak of one level of a value at a time:
a text is a JSON text, a list is the array of its items, a record is the object of its fields, and a field is found by
its key.
-/

namespace SourceIndex.Json

mutual

/-- A kind of value that is exchanged. -/
inductive Kind where
  | truth
  /-- An unsigned word of 64 bits. -/
  | word
  /-- A signed word of 64 bits. -/
  | signedWord
  | text
  | list (item : Kind)
  | record (fields : Fields)

/-- The fields of a record in the order in which they are declared. -/
inductive Fields where
  | nil
  | cons (key : Text) (kind : Kind) (rest : Fields)

end

mutual

/-- The values of a kind. -/
def Kind.Value : Kind → Type
  | .truth => Bool
  | .word => UInt64
  | .signedWord => Int64
  | .text => Text
  | .list item => List item.Value
  | .record fields => fields.Values

/-- The values of the fields of a record, one after the other. -/
def Fields.Values : Fields → Type
  | .nil => Unit
  | .cons _ kind rest => kind.Value × rest.Values

end

/-- The keys of the fields. -/
def Fields.keys : Fields → List Text
  | .nil => []
  | .cons key _ rest => key :: rest.keys

mutual

/-- Whether no two fields of a record have the same key, at any level. -/
def Kind.distinct : Kind → Bool
  | .list item => item.distinct
  | .record fields => fields.keys.Nodup && fields.distinct
  | _ => true

/-- Whether the kinds of the fields are distinct. -/
def Fields.distinct : Fields → Bool
  | .nil => true
  | .cons _ kind rest => kind.distinct && rest.distinct

end

mutual

/-- How deep arrays and objects are nested in the values of a kind. -/
def Kind.depth : Kind → Nat
  | .list item => item.depth + 1
  | .record fields => fields.depth + 1
  | _ => 0

/-- How deep arrays and objects are nested in the values of the fields. -/
def Fields.depth : Fields → Nat
  | .nil => 0
  | .cons _ kind rest => max kind.depth rest.depth

end

/-- The members of the object for a record, given how the values of its fields are encoded. -/
def Fields.members (encode : (kind : Kind) → kind.Value → Json) :
    (fields : Fields) → fields.Values → List (Option Text × Json)
  | .nil, _ => []
  | .cons key kind rest, (x, xs) => (some key, encode kind x) :: rest.members encode xs

/-- Whether each field of a record has its key once among the members of an object, with a value that is decoded into
the value of the field. -/
def Fields.Found (decode? : (kind : Kind) → Json → Option kind.Value) (members : List (Option Text × Json)) :
    (fields : Fields) → fields.Values → Prop
  | .nil, _ => True
  | .cons key kind rest, (x, xs) =>
    (∃ value, (members.filter fun member => member.1 = some key) = [(some key, value)] ∧ decode? kind value = some x) ∧
      rest.Found decode? members xs

/-- A library for JSON: it writes and parses JSON values, and it encodes what is exchanged as such a value and decodes
it again. -/
structure Library where
  render : Json → Text
  parse? : Text → Option Json
  encode : (kind : Kind) → kind.Value → Json
  decode? : (kind : Kind) → Json → Option kind.Value

/-- How deep arrays and objects may be nested in a document, exclusively. -/
def depthLimit : Nat := 128

/-- What is relied upon of a library.  An encoded value is parsed back from the text that is written for it, unless it
is nested too deep.  Integers are exact, and the fields of a record are written under their keys; they are read by their
keys, all of them are required, and members with other keys are passed over. -/
structure Library.Lawful (lib : Library) : Prop where
  parse?_render : ∀ (kind : Kind) (x : kind.Value), kind.distinct = true → kind.depth < depthLimit →
    lib.parse? (lib.render (lib.encode kind x)) = some (lib.encode kind x)
  encode_truth : ∀ b : Bool, lib.encode .truth b = .truth b
  encode_word : ∀ n : UInt64, lib.encode .word n = .integer n.toNat
  encode_signedWord : ∀ n : Int64, lib.encode .signedWord n = .integer n.toInt
  encode_text : ∀ t : Text, lib.encode .text t = .text (some t)
  encode_list : ∀ (item : Kind) (xs : List item.Value), lib.encode (.list item) xs = .array (xs.map (lib.encode item))
  encode_record : ∀ (fields : Fields) (xs : fields.Values),
    lib.encode (.record fields) xs = .object (fields.members lib.encode xs)
  decode?_truth : ∀ b : Bool, lib.decode? .truth (.truth b) = some b
  decode?_word : ∀ n : UInt64, lib.decode? .word (.integer n.toNat) = some n
  decode?_signedWord : ∀ n : Int64, lib.decode? .signedWord (.integer n.toInt) = some n
  decode?_text : ∀ t : Text, lib.decode? .text (.text (some t)) = some t
  decode?_list : ∀ (item : Kind) (items : List Json) (xs : List item.Value),
    items.map (lib.decode? item) = xs.map some → lib.decode? (.list item) (.array items) = some xs
  decode?_record : ∀ (fields : Fields) (members : List (Option Text × Json)) (xs : fields.Values),
    (∀ member ∈ members, member.1 ≠ none) → fields.Found lib.decode? members xs →
      lib.decode? (.record fields) (.object members) = some xs

/-- A type whose values are exchanged as records, with the values of their fields. -/
structure Record (α : Type) where
  fields : Fields
  values : α → fields.Values
  ofValues : fields.Values → α
  ofValues_values : ∀ x, ofValues (values x) = x
  distinct : (Kind.record fields).distinct = true
  depth_lt : (Kind.record fields).depth < depthLimit

theorem Record.map_ofValues_map_values {α : Type} (r : Record α) (xs : List α) :
    (xs.map r.values).map r.ofValues = xs := by
  have hid : r.ofValues ∘ r.values = id := funext r.ofValues_values
  rw [List.map_map, hid, List.map_id]

namespace Library

variable {α : Type}

/-- The document for a record. -/
def write (lib : Library) (r : Record α) (x : α) : Text := lib.render (lib.encode (.record r.fields) (r.values x))

/-- The record which a document holds. -/
def read? (lib : Library) (r : Record α) (document : Text) : Option α :=
  ((lib.parse? document).bind (lib.decode? (.record r.fields))).map r.ofValues

end Library

end SourceIndex.Json
