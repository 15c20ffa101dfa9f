import Mathlib.Data.List.Forall2
import Mathlib.Data.List.Nodup
import SourceIndex.Json.Record
import SourceIndex.Proofs.Json.PlainLibrary

/-!
# Exchanging records

A record is read back from the object that was written for it, also with its members in another order and with further
members, at any level.  A library is only relied upon for one level at a time, so this goes by induction over the kind
of a value (`Library.Lawful.decode?_of_rearranges`): the items of a list are read one by one, and each field of a record
has its key once among the members of a rearranged object (`filter_key_of_perm`).
-/

namespace SourceIndex.Json

/-! ### Rearranged values -/

/-- A value with the members of each object in any order, and with any members besides whose keys the object does not
have. -/
inductive Rearranges : Json → Json → Prop
  | refl (j : Json) : Rearranges j j
  | array {items items' : List Json} (hitems : List.Forall₂ Rearranges items items') :
      Rearranges (array items) (array items')
  | object {members members' added result : List (Option Text × Json)}
      (hkeys : members'.map Prod.fst = members.map Prod.fst)
      (hvalues : List.Forall₂ Rearranges (members.map Prod.snd) (members'.map Prod.snd))
      (hadded : ∀ member ∈ added, ∃ key : Text, member.1 = some key ∧ some key ∉ members.map Prod.fst)
      (hresult : result.Perm (members' ++ added)) : Rearranges (object members) (object result)

private theorem Rearranges.array_cases {items : List Json} {j : Json} (h : Rearranges (.array items) j) :
    ∃ items', j = .array items' ∧ List.Forall₂ Rearranges items items' := by
  cases h with
  | refl => exact ⟨items, rfl, List.forall₂_same.mpr fun item _ => .refl item⟩
  | array hitems => exact ⟨_, rfl, hitems⟩

private theorem Rearranges.object_cases {members : List (Option Text × Json)} {j : Json}
    (h : Rearranges (.object members) j) :
    ∃ members' added result, j = .object result ∧ members'.map Prod.fst = members.map Prod.fst ∧
      List.Forall₂ Rearranges (members.map Prod.snd) (members'.map Prod.snd) ∧
      (∀ member ∈ added, ∃ key : Text, member.1 = some key ∧ some key ∉ members.map Prod.fst) ∧
      result.Perm (members' ++ added) := by
  cases h with
  | refl =>
    refine ⟨members, [], members, rfl, rfl, List.forall₂_same.mpr fun value _ => .refl value, by simp, ?_⟩
    rw [List.append_nil]
  | object hkeys hvalues hadded hresult => exact ⟨_, _, _, rfl, hkeys, hvalues, hadded, hresult⟩

/-! ### Members of a rearranged object -/

private theorem filter_key_eq_nil {members : List (Option Text × Json)} {key : Text}
    (h : some key ∉ members.map Prod.fst) : (members.filter fun member => member.1 = some key) = [] := by
  rw [List.filter_eq_nil_iff]
  intro member hmember
  rw [decide_eq_true_eq]
  intro hsame
  exact h (List.mem_map.mpr ⟨member, hmember, hsame⟩)

private theorem filter_key_eq_singleton {members : List (Option Text × Json)} (hnodup : (members.map Prod.fst).Nodup)
    {key : Text} {value : Json} (h : (some key, value) ∈ members) :
    (members.filter fun member => member.1 = some key) = [(some key, value)] := by
  induction members with
  | nil => simp at h
  | cons member members ih =>
    rw [List.map_cons, List.nodup_cons] at hnodup
    obtain ⟨hnotMem, hnodup⟩ := hnodup
    rcases List.mem_cons.mp h with rfl | h
    · rw [List.filter_cons_of_pos (by simp), filter_key_eq_nil hnotMem]
    · have hne : member.1 ≠ some key := fun hsame => hnotMem (List.mem_map.mpr ⟨_, h, hsame.symm⟩)
      rw [List.filter_cons_of_neg (by simpa using hne), ih hnodup h]

/-- A member stands alone at its key, whatever members with other keys there are. -/
theorem filter_key_of_perm {members added result : List (Option Text × Json)}
    (hnodup : (members.map Prod.fst).Nodup)
    (hadded : ∀ member ∈ added, ∃ key : Text, member.1 = some key ∧ some key ∉ members.map Prod.fst)
    (hresult : result.Perm (members ++ added)) {key : Text} {value : Json} (h : (some key, value) ∈ members) :
    (result.filter fun member => member.1 = some key) = [(some key, value)] := by
  have hnew : some key ∉ added.map Prod.fst := by
    intro hkey
    obtain ⟨member, hmember, hsame⟩ := List.mem_map.mp hkey
    obtain ⟨other, hother, hnotMem⟩ := hadded member hmember
    exact hnotMem (hother ▸ hsame ▸ List.mem_map.mpr ⟨_, h, rfl⟩)
  have hperm := hresult.filter fun member => member.1 = some key
  rwa [List.filter_append, filter_key_eq_singleton hnodup h, filter_key_eq_nil hnew, List.append_nil,
    List.perm_singleton] at hperm

theorem map_fst_members (encode : (kind : Kind) → kind.Value → Json) : ∀ (fields : Fields) (xs : fields.Values),
    (fields.members encode xs).map Prod.fst = fields.keys.map some
  | .nil, _ => rfl
  | .cons key _ rest, (_, xs) => congrArg (some key :: ·) (map_fst_members encode rest xs)

private theorem map_decode?_eq {α : Type} {encode : α → Json} {decode? : Json → Option α} {items : List Json}
    (hdecode : ∀ x j, Rearranges (encode x) j → decode? j = some x) {xs : List α}
    (hitems : List.Forall₂ Rearranges (xs.map encode) items) : items.map decode? = xs.map some := by
  induction xs generalizing items with
  | nil =>
    cases hitems
    rfl
  | cons x xs ih =>
    rw [List.map_cons] at hitems
    cases hitems with
    | cons hitem hitems => rw [List.map_cons, List.map_cons, hdecode x _ hitem, ih hitems]

/-! ### Values of any kind -/

namespace Library

variable {lib : Library}

mutual

/-- An encoded value is decoded again, however the objects in it are rearranged. -/
theorem Lawful.decode?_of_rearranges (h : lib.Lawful) : (kind : Kind) → kind.distinct = true → (x : kind.Value) →
    (j : Json) → Rearranges (lib.encode kind x) j → lib.decode? kind j = some x
  | .truth, _, b, j, hj => by
    cases (h.encode_truth b ▸ hj : Rearranges (.truth b) j)
    exact h.decode?_truth b
  | .word, _, n, j, hj => by
    cases (h.encode_word n ▸ hj : Rearranges (.integer (UInt64.toNat n)) j)
    exact h.decode?_word n
  | .signedWord, _, n, j, hj => by
    cases (h.encode_signedWord n ▸ hj : Rearranges (.integer (Int64.toInt n)) j)
    exact h.decode?_signedWord n
  | .text, _, t, j, hj => by
    cases (h.encode_text t ▸ hj : Rearranges (.text (some t)) j)
    exact h.decode?_text t
  | .list item, hdistinct, xs, j, hj => by
    have hj : Rearranges (.array (List.map (lib.encode item) xs)) j := h.encode_list item xs ▸ hj
    obtain ⟨items, rfl, hitems⟩ := hj.array_cases
    exact h.decode?_list item items xs (map_decode?_eq (h.decode?_of_rearranges item hdistinct) hitems)
  | .record fields, hdistinct, xs, j, hj => by
    have hj : Rearranges (.object (fields.members lib.encode xs)) j := h.encode_record fields xs ▸ hj
    obtain ⟨members, added, result, rfl, hkeys, hvalues, hadded, hresult⟩ := hj.object_cases
    obtain ⟨hnodup, hdistinct⟩ : fields.keys.Nodup ∧ fields.distinct = true := by
      rwa [Kind.distinct, Bool.and_eq_true, decide_eq_true_eq] at hdistinct
    have hmembers : members.map Prod.fst = fields.keys.map some :=
      hkeys.trans (map_fst_members lib.encode fields xs)
    have hnone : ∀ member ∈ result, member.1 ≠ none := by
      intro member hmember
      rcases List.mem_append.mp (hresult.mem_iff.mp hmember) with hmember | hmember
      · have hkey : member.1 ∈ fields.keys.map some := hmembers ▸ List.mem_map_of_mem hmember
        obtain ⟨key, -, hkey⟩ := List.mem_map.mp hkey
        simp [← hkey]
      · obtain ⟨key, hkey, -⟩ := hadded member hmember
        simp [hkey]
    refine h.decode?_record fields result xs hnone (h.found_of_rearranges fields hdistinct xs members hkeys hvalues ?_)
    intro key value hmember
    refine filter_key_of_perm ?_ (hkeys ▸ hadded) hresult hmember
    rw [hmembers]
    exact hnodup.map fun _ _ hsame => Option.some.inj hsame

/-- The fields of a record are found in every object with rearranged values at their keys. -/
theorem Lawful.found_of_rearranges (h : lib.Lawful) {result : List (Option Text × Json)} : (fields : Fields) →
    fields.distinct = true → (xs : fields.Values) → (members : List (Option Text × Json)) →
    members.map Prod.fst = (fields.members lib.encode xs).map Prod.fst →
    List.Forall₂ Rearranges ((fields.members lib.encode xs).map Prod.snd) (members.map Prod.snd) →
    (∀ key value, (some key, value) ∈ members →
      (result.filter fun member => member.1 = some key) = [(some key, value)]) →
    fields.Found lib.decode? result xs
  | .nil, _, _, _, _, _, _ => trivial
  | .cons key kind rest, hdistinct, (x, xs), members, hkeys, hvalues, halone => by
    obtain ⟨hkind, hrest⟩ : kind.distinct = true ∧ rest.distinct = true := by
      rwa [Fields.distinct, Bool.and_eq_true] at hdistinct
    match members, hkeys, hvalues with
    | (found, value) :: others, hkeys, .cons hvalue hvalues =>
      obtain ⟨rfl, hothers⟩ : found = some key ∧ others.map Prod.fst = (rest.members lib.encode xs).map Prod.fst :=
        List.cons.inj hkeys
      refine ⟨⟨value, halone key value List.mem_cons_self, h.decode?_of_rearranges kind hkind x value hvalue⟩, ?_⟩
      exact h.found_of_rearranges rest hrest xs others hothers hvalues fun key value hmember =>
        halone key value (List.mem_cons_of_mem _ hmember)

end

/-- Whether every record is read back from the document that is written for it, and from every document whose value is
that of the written one with members of objects rearranged. -/
def Exchanges {α : Type} (lib : Library) (r : Record α) : Prop :=
  ∀ x, lib.read? r (lib.write r x) = some x ∧
    ∀ document j, lib.parse? document = some j → Rearranges (lib.encode (.record r.fields) (r.values x)) j →
      lib.read? r document = some x

theorem Lawful.exchanges (h : lib.Lawful) {α : Type} (r : Record α) : lib.Exchanges r := by
  intro x
  have hread : ∀ document j, lib.parse? document = some j →
      Rearranges (lib.encode (.record r.fields) (r.values x)) j → lib.read? r document = some x := by
    intro document j hdocument hj
    have hdecode := h.decode?_of_rearranges (.record r.fields) r.distinct (r.values x) j hj
    rw [read?, hdocument, Option.bind_some, hdecode]
    exact congrArg some (r.ofValues_values x)
  exact ⟨hread _ _ (h.parse?_render _ _ r.distinct r.depth_lt) (.refl _), hread⟩

end Library

/-- Each of the six records is exchanged without a loss. -/
theorem records_exchanged {lib : Library} (h : lib.Lawful) :
    lib.Exchanges Contribution.record ∧ lib.Exchanges LanguageCount.record ∧ lib.Exchanges OwnerCount.record ∧
      lib.Exchanges ProjectStats.record ∧ lib.Exchanges Finding.record ∧ lib.Exchanges Language.record :=
  ⟨h.exchanges _, h.exchanges _, h.exchanges _, h.exchanges _, h.exchanges _, h.exchanges _⟩

/-- Members in another order at both levels, and members which no record has, one of them half a character. -/
theorem records_exchanged_rearranged :
    let stats : ProjectStats := ⟨0xFFFFFFFFFFFFFFFF, [], [⟨['"', '\n', '😀'], 7⟩]⟩
    let document := "\x7b\"note\":\"\\ud800\",\"owners\":[\x7b\"count\":7,\"x\":0.5,\"owner\":\"\\\"\\n😀\"\x7d],".toList
      ++ "\"languages\":[],\"total_files\":18446744073709551615\x7d".toList
    let owner := object [(some "count".toList, .integer 7), (some "x".toList, .fraction),
      (some "owner".toList, .text (some ['"', '\n', '😀']))]
    let j := object [(some "note".toList, .text none), (some "owners".toList, .array [owner]),
      (some "languages".toList, .array []), (some "total_files".toList, .integer 0xFFFFFFFFFFFFFFFF)]
    plain.Lawful ∧ plain.parse? document = some j ∧
      Rearranges (plain.encode (.record ProjectStats.record.fields) (ProjectStats.record.values stats)) j ∧
      plain.read? ProjectStats.record document = some stats := by
  intro stats document owner j
  have hrender : render j = document := by decide +kernel
  have hparse : plain.parse? document = some j := hrender ▸ parse?_render j
  have howner : Rearranges (plain.encode (.record OwnerCount.record.fields)
      (OwnerCount.record.values ⟨['"', '\n', '😀'], 7⟩)) owner := by
    refine @Rearranges.object _
      [(some "owner".toList, .text (some ['"', '\n', '😀'])), (some "count".toList, .integer 7)]
      [(some "x".toList, .fraction)] _ rfl (List.forall₂_same.mpr fun value _ => .refl value) ?_ ?_
    · exact List.forall_mem_singleton.mpr ⟨_, rfl, by decide⟩
    · exact @List.perm_append_comm _ [(some "count".toList, integer 7), (some "x".toList, fraction)] [_]
  have hj : Rearranges (plain.encode (.record ProjectStats.record.fields) (ProjectStats.record.values stats)) j := by
    refine @Rearranges.object _ [(some "total_files".toList, .integer 0xFFFFFFFFFFFFFFFF),
      (some "languages".toList, .array []), (some "owners".toList, .array [owner])] [(some "note".toList, .text none)]
      _ rfl (.cons (.refl _) (.cons (.refl _) (.cons (.array (.cons howner .nil)) .nil))) ?_
      (List.reverse_perm [_, _, _, (some "note".toList, text none)])
    exact List.forall_mem_singleton.mpr ⟨_, rfl, by decide⟩
  exact ⟨plain_lawful, hparse, hj, ((records_exchanged plain_lawful).2.2.2.1 stats).2 document j hparse hj⟩

end SourceIndex.Json
