import SourceIndex.Json.Plain
import SourceIndex.Proofs.Json.WrittenValue

/-!
# The plain library is lawful

The plain library meets everything that is relied upon of a library (`plain_lawful`).  Its reader takes every value back
that its writer wrote (`parse?_render`), and a record is put together from the members that are found for its fields
(`Fields.decode?_of_found`).
-/

namespace SourceIndex.Json

theorem toWord?_integer (n : UInt64) : toWord? (.integer n.toNat) = some n := by
  have hlt : n.toNat < UInt64.size := n.toNat_lt_size
  have hrange : (0 ≤ (n.toNat : Int) && (n.toNat : Int) < UInt64.size) = true := by
    rw [Bool.and_eq_true, decide_eq_true_eq, decide_eq_true_eq]
    omega
  rw [toWord?, if_pos hrange, Int.toNat_natCast, UInt64.ofNat_toNat]

theorem toSignedWord?_integer (n : Int64) : toSignedWord? (.integer n.toInt) = some n := by
  have hrange : (Int64.minValue.toInt ≤ n.toInt && n.toInt ≤ Int64.maxValue.toInt) = true := by
    rw [Bool.and_eq_true, decide_eq_true_eq, decide_eq_true_eq]
    exact ⟨n.minValue_le_toInt, n.toInt_le⟩
  rw [toSignedWord?, if_pos hrange, Int64.ofInt_toInt]

theorem toList?_array {α : Type} {item? : Json → Option α} {items : List Json} {xs : List α}
    (h : items.map item? = xs.map some) : toList? item? (.array items) = some xs := by
  show items.mapM item? = some xs
  induction items generalizing xs with
  | nil =>
    obtain rfl : xs = [] := by simpa using h.symm
    rfl
  | cons item items ih =>
    cases xs with
    | nil => simp at h
    | cons x xs =>
      obtain ⟨hitem, hitems⟩ : item? item = some x ∧ items.map item? = xs.map some := List.cons.inj h
      rw [List.mapM_cons, hitem, ih hitems]
      rfl

theorem Fields.encode_eq_members : ∀ (fields : Fields) (xs : fields.Values),
    fields.encode xs = fields.members Kind.encode xs
  | .nil, _ => rfl
  | .cons key kind rest, (x, xs) => congrArg ((some key, kind.encode x) :: ·) (rest.encode_eq_members xs)

/-- The values that are found for the fields of a record make up the record. -/
theorem Fields.decode?_of_found {members : List (Option Text × Json)} : ∀ (fields : Fields) (xs : fields.Values),
    fields.Found Kind.decode? members xs → (fields.keys.mapM (member? members)).bind fields.decode? = some xs
  | .nil, (), _ => rfl
  | .cons key kind rest, (x, xs), ⟨⟨value, hkey, hvalue⟩, hrest⟩ => by
    obtain ⟨values, hvalues, hxs⟩ := Option.bind_eq_some_iff.mp (rest.decode?_of_found xs hrest)
    have hmember : member? members key = some value := by rw [member?, hkey]
    have hall : (Fields.cons key kind rest).keys.mapM (member? members) = some (value :: values) := by
      rw [Fields.keys, List.mapM_cons, hmember, hvalues]
      rfl
    rw [hall, Option.bind_some, Fields.decode?, hvalue, hxs]
    rfl

private theorem decode?_word (j : Json) : plain.decode? .word j = j.toWord? := rfl

private theorem decode?_signedWord (j : Json) : plain.decode? .signedWord j = j.toSignedWord? := rfl

theorem plain_lawful : plain.Lawful where
  parse?_render kind x _ _ := parse?_render (kind.encode x)
  encode_truth _ := rfl
  encode_word _ := rfl
  encode_signedWord _ := rfl
  encode_text _ := rfl
  encode_list _ _ := rfl
  encode_record fields xs := congrArg object (fields.encode_eq_members xs)
  decode?_truth _ := rfl
  decode?_word n := (decode?_word _).trans (toWord?_integer n)
  decode?_signedWord n := (decode?_signedWord _).trans (toSignedWord?_integer n)
  decode?_text _ := rfl
  decode?_list _ _ _ h := toList?_array h
  decode?_record fields members xs hkeys hfound := by
    have hsome : members.all (·.1.isSome) = true := by
      rw [List.all_eq_true]
      exact fun member hmember => Option.isSome_iff_ne_none.mpr (hkeys member hmember)
    show ((object members).fields? fields.keys).bind fields.decode? = some xs
    rw [fields?, if_pos hsome]
    exact fields.decode?_of_found xs hfound

end SourceIndex.Json
