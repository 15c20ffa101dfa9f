import Mathlib.Data.List.Basic
import SourceIndex.Json.Reader
import SourceIndex.Json.Writer

/-!
# Reading what was written

A value that was written is read back from the front of every text that does not go on with a number
(`readsBack_render`), and so a whole document is (`parse?_render`).  Items between brackets and members between braces
are written alike, so both follow from what is said of one item (`readBracketed_intercalate`).
-/

namespace SourceIndex.Json

theorem skipSpace_cons {c : Char} (h : isSpace c = false) (t : Text) : skipSpace (c :: t) = c :: t := by
  simp [skipSpace, h]

/-! ### Quoted texts -/

private theorem unit?_hexDigit {n : Nat} (h : n < 0x20) :
    unit? '0' '0' (hexDigit (n / 16)) (hexDigit (n % 16)) = some n := by
  revert n
  decide

private theorem readCodes_cons {c : Char} (hquote : c ≠ '"') (hslash : c ≠ '\\') (hcontrol : ¬ c < ' ') (rest : Text) :
    readCodes (c :: rest) = (readCodes rest).map fun (codes, rest) => (c.toNat :: codes, rest) := by
  rw [readCodes.eq_def]
  split
  · next h => exact absurd h (List.cons_ne_nil c rest)
  · next h => exact absurd (List.cons.inj h).1 hquote
  · next h => exact absurd (List.cons.inj h).1 hslash
  · next h => exact absurd (List.cons.inj h).1 hslash
  · next h =>
    obtain ⟨rfl, rfl⟩ := List.cons.inj h
    rw [if_neg]
    simp [hcontrol, hslash]

theorem readCodes_quoteChar (c : Char) (rest : Text) :
    readCodes (quoteChar c ++ rest) = (readCodes rest).map fun (codes, rest) => (c.toNat :: codes, rest) := by
  unfold quoteChar
  split
  case h_8 hquote hslash _ _ _ _ _ =>
    split
    · next hcontrol =>
      have hlt : c.toNat < 0x20 := hcontrol
      simp only [List.cons_append, List.nil_append]
      rw [readCodes, unit?_hexDigit hlt, Option.bind_some]
    · next hcontrol => exact readCodes_cons hquote hslash hcontrol rest
  all_goals rfl

theorem readCodes_flatMap (t rest : Text) :
    readCodes (t.flatMap quoteChar ++ '"' :: rest) = some (t.map Char.toNat, rest) := by
  induction t with
  | nil => rfl
  | cons c t ih =>
    rw [List.flatMap_cons, List.append_assoc, readCodes_quoteChar, ih]
    rfl

/-- No character of a text is half a character. -/
private theorem not_isHalf_toNat (c : Char) : isHighHalf c.toNat = false ∧ isLowHalf c.toNat = false := by
  have hvalid : c.toNat < 0xD800 ∨ 0xDFFF < c.toNat ∧ c.toNat < 0x110000 := c.valid
  simp only [isHighHalf, isLowHalf, Bool.and_eq_false_iff, decide_eq_false_iff_not]
  omega

theorem ofCodes?_map_toNat (t : Text) : ofCodes? (t.map Char.toNat) = some t := by
  induction t with
  | nil => rfl
  | cons c t ih =>
    obtain ⟨hhigh, hlow⟩ := not_isHalf_toNat c
    cases t with
    | nil => simp [ofCodes?, hhigh, hlow]
    | cons d t =>
      rw [List.map_cons] at ih
      simp [ofCodes?, hhigh, hlow, ih]

theorem exists_quote_eq_cons (content : Option Text) :
    ∃ body, quote content = '"' :: body ∧ ∀ rest, readText (body ++ rest) = some (content, rest) := by
  cases content with
  | none => exact ⟨_, rfl, fun _ => rfl⟩
  | some t =>
    refine ⟨t.flatMap quoteChar ++ ['"'], rfl, fun rest => ?_⟩
    rw [List.append_assoc, List.singleton_append, readText, readCodes_flatMap, Option.map_some]
    exact congrArg (fun content => some (content, rest)) (ofCodes?_map_toNat t)

/-! ### Numbers -/

/-- Whether a text does not go on with the number before it. -/
def EndsNumber (rest : Text) : Prop := ∀ c ∈ rest.head?, c.isDigit = false ∧ c ≠ '.' ∧ c ≠ 'e' ∧ c ≠ 'E'

private theorem readDigits_append {digits rest : Text} (hne : digits ≠ []) (hdigits : ∀ c ∈ digits, c.isDigit = true)
    (hrest : EndsNumber rest) : readDigits (digits ++ rest) = some (digits, rest) := by
  have hstop : rest.takeWhile Char.isDigit = [] ∧ rest.dropWhile Char.isDigit = rest := by
    cases rest with
    | nil => exact ⟨rfl, rfl⟩
    | cons c rest => simp [(hrest c rfl).1]
  simp [readDigits, List.takeWhile_append_of_pos hdigits, List.dropWhile_append_of_pos hdigits, hstop, hne]

private theorem readPlaces_of_endsNumber {rest : Text} (h : EndsNumber rest) :
    readPlaces rest = some (false, rest) := by
  unfold readPlaces
  split
  · exact absurd rfl (h '.' rfl).2.1
  · rfl

private theorem readExponent_of_endsNumber {rest : Text} (h : EndsNumber rest) :
    readExponent rest = some (false, rest) := by
  cases rest with
  | nil => rfl
  | cons c rest =>
    obtain ⟨-, -, hlower, hupper⟩ := h c rfl
    simp [readExponent, hlower, hupper]

private theorem isDigit_of_mem_decimal {n : Nat} {c : Char} (h : c ∈ Nat.toDigits 10 n) : c.isDigit = true :=
  Nat.isDigit_of_mem_toDigits (by decide) (by decide) h

/-- Only the number zero begins with the digit zero. -/
private theorem eq_zero_of_head?_toDigits {n : Nat} (h : (Nat.toDigits 10 n).head? = some '0') : n = 0 := by
  induction n using Nat.strongRecOn with
  | ind n ih =>
    by_cases hsmall : n < 10
    · rw [Nat.toDigits_of_lt_base hsmall, List.head?_cons, Option.some.injEq] at h
      exact Nat.digitChar_eq_zero.mp h
    · rw [Nat.toDigits_of_base_le (by decide) (by omega), List.head?_append_of_ne_nil _ Nat.toDigits_ne_nil] at h
      have hzero := ih (n / 10) (by omega) h
      omega

private theorem ofDigits_toDigits (n : Nat) : ofDigits (Nat.toDigits 10 n) = n := by
  have hdigits := @Nat.ofDigitChars_ten_toDigits n
  rw [Nat.ofDigitChars_eq_foldl] at hdigits
  simpa only [ofDigits, Nat.mul_comm] using hdigits

private theorem readUnsigned_toDigits {negative : Bool} {n : Nat} (hn : negative = true → n ≠ 0) {rest : Text}
    (hrest : EndsNumber rest) :
    readUnsigned negative (Nat.toDigits 10 n ++ rest) = some (integer (if negative then -(n : Int) else n), rest) := by
  have hread : readDigits (Nat.toDigits 10 n ++ rest) = some (Nat.toDigits 10 n, rest) :=
    readDigits_append Nat.toDigits_ne_nil (fun _ => isDigit_of_mem_decimal) hrest
  have hzero : ¬ ((Nat.toDigits 10 n).head? = some '0' ∧ (Nat.toDigits 10 n).length ≠ 1) := by
    rintro ⟨hhead, hlength⟩
    obtain rfl := eq_zero_of_head?_toDigits hhead
    exact hlength rfl
  simp only [readUnsigned, hread, Option.bind_eq_bind, Option.bind_some]
  rw [if_neg (by simpa using hzero), readPlaces_of_endsNumber hrest]
  simp only [Option.bind_some, readExponent_of_endsNumber hrest, ofDigits_toDigits, Bool.false_or]
  rw [if_neg]
  simpa using hn

private theorem ne_of_isNumber {c d : Char} (hc : c.isDigit = true ∨ c = '-') (hdigit : d.isDigit = false)
    (hsign : d ≠ '-') : c ≠ d := by
  rintro rfl
  simp [hdigit, hsign] at hc

private theorem exists_decimal_eq_cons (n : Int) : ∃ c t, decimal n = c :: t ∧ (c.isDigit = true ∨ c = '-') := by
  cases n with
  | ofNat n =>
    obtain ⟨c, t, hdigits⟩ : ∃ c t, Nat.toDigits 10 n = c :: t := List.exists_cons_of_ne_nil Nat.toDigits_ne_nil
    exact ⟨c, t, hdigits, .inl (isDigit_of_mem_decimal (hdigits ▸ List.mem_cons_self))⟩
  | negSucc n => exact ⟨_, _, rfl, .inr rfl⟩

theorem readNumber_decimal (n : Int) {rest : Text} (hrest : EndsNumber rest) :
    readNumber (decimal n ++ rest) = some (integer n, rest) := by
  cases n with
  | ofNat n =>
    have hunsigned : readUnsigned false (Nat.toDigits 10 n ++ rest) = some (integer n, rest) :=
      readUnsigned_toDigits (by simp) hrest
    obtain ⟨c, t, hdigits, hc⟩ : ∃ c t, Nat.toDigits 10 n = c :: t ∧ c ≠ '-' := by
      obtain ⟨c, t, hdigits⟩ : ∃ c t, Nat.toDigits 10 n = c :: t := List.exists_cons_of_ne_nil Nat.toDigits_ne_nil
      refine ⟨c, t, hdigits, ?_⟩
      rintro rfl
      exact absurd (isDigit_of_mem_decimal (hdigits ▸ List.mem_cons_self)) (by decide)
    rw [decimal, hdigits, List.cons_append]
    rw [hdigits, List.cons_append] at hunsigned
    simp [readNumber, hc, hunsigned]
  | negSucc n =>
    have hnegative : readUnsigned true (Nat.toDigits 10 (n + 1) ++ rest) = some (integer (-(n + 1 : Nat)), rest) :=
      readUnsigned_toDigits (by simp) hrest
    exact hnegative

/-! ### Items between brackets -/

section Items

variable {α : Type} {item : Text → Option (α × Text)} {write : α → Text} {close : Char}

private theorem endsNumber_comma (rest : Text) : EndsNumber (',' :: rest) := by
  rintro c ⟨⟩
  decide

private theorem endsNumber_close (hclose : close = ']' ∨ close = '}') (rest : Text) : EndsNumber (close :: rest) := by
  rintro c ⟨⟩
  rcases hclose with rfl | rfl <;> decide

/-- Whether an item is read back from the front of a text. -/
def ReadsBack (item : Text → Option (α × Text)) (write : α → Text) (x : α) : Prop :=
  ∀ rest, EndsNumber rest → item (write x ++ rest) = some (x, rest)

private theorem readItems_intercalate (hclose : close = ']' ∨ close = '}') {xs : List α} (hne : xs ≠ [])
    (hitems : ∀ x ∈ xs, ReadsBack item write x) {fuel : Nat} (hfuel : xs.length ≤ fuel) (rest : Text) :
    readItems item close fuel ([','].intercalate (xs.map write) ++ close :: rest) = some (xs, rest) := by
  have hspace : isSpace close = false := by rcases hclose with rfl | rfl <;> decide
  induction xs generalizing fuel with
  | nil => exact absurd rfl hne
  | cons x xs ih =>
    obtain ⟨hitem, hitems⟩ := List.forall_mem_cons.mp hitems
    obtain ⟨fuel, rfl⟩ : ∃ n, fuel = n + 1 := Nat.exists_eq_add_one.mpr (Nat.lt_of_lt_of_le (Nat.succ_pos _) hfuel)
    cases xs with
    | nil =>
      have hread := hitem (close :: rest) (endsNumber_close hclose rest)
      simp [readItems, hread, skipSpace_cons hspace]
    | cons y ys =>
      have hread := hitem (',' :: ([','].intercalate ((y :: ys).map write) ++ close :: rest)) (endsNumber_comma _)
      have hcomma : ',' ≠ close := by rcases hclose with rfl | rfl <;> decide
      have hmore := ih (List.cons_ne_nil y ys) hitems (Nat.le_of_succ_le_succ hfuel)
      rw [List.map_cons, List.map_cons, List.intercalate_cons_cons, ← List.map_cons, List.append_assoc,
        List.append_assoc, List.singleton_append, readItems, hread, Option.bind_some]
      rw [List.map_cons] at hmore
      simp [skipSpace_cons (c := ',') rfl, hcomma, hmore]

private theorem exists_intercalate_eq_cons {x : α} {c : Char} {t : Text} (h : write x = c :: t) (xs : List α) :
    ∃ u, [','].intercalate ((x :: xs).map write) = c :: u := by
  cases xs with
  | nil => exact ⟨t, by simp [h]⟩
  | cons y ys => exact ⟨_, by rw [List.map_cons, List.map_cons, List.intercalate_cons_cons, h]; rfl⟩

/-- What stands between brackets is read back if every item is, and if no item begins like the closing bracket. -/
theorem readBracketed_intercalate (hclose : close = ']' ∨ close = '}') {xs : List α}
    (hitems : ∀ x ∈ xs, ReadsBack item write x)
    (hfront : ∀ x ∈ xs, ∃ c t, write x = c :: t ∧ isSpace c = false ∧ c ≠ close) {fuel : Nat} (hfuel : xs.length ≤ fuel)
    (rest : Text) :
    readBracketed item close fuel ([','].intercalate (xs.map write) ++ close :: rest) = some (xs, rest) := by
  cases xs with
  | nil =>
    have hspace : isSpace close = false := by rcases hclose with rfl | rfl <;> decide
    simp [readBracketed, skipSpace_cons hspace]
  | cons x xs =>
    obtain ⟨c, t, hwrite, hspace, hne⟩ := hfront x List.mem_cons_self
    obtain ⟨u, hu⟩ := exists_intercalate_eq_cons hwrite xs
    have hread := readItems_intercalate hclose (List.cons_ne_nil x xs) hitems hfuel rest
    rw [hu, List.cons_append] at hread ⊢
    simp [readBracketed, skipSpace_cons hspace, hne, hread]

private theorem length_le_intercalate (write : α → Text) (xs : List α) :
    xs.length ≤ ([','].intercalate (xs.map write)).length + 1 ∧
      ∀ x ∈ xs, (write x).length ≤ ([','].intercalate (xs.map write)).length := by
  induction xs with
  | nil => simp
  | cons x xs ih =>
    cases xs with
    | nil => simp
    | cons y ys =>
      have hjoined : ([','].intercalate ((x :: y :: ys).map write)).length
          = (write x).length + 1 + ([','].intercalate ((y :: ys).map write)).length := by
        rw [List.map_cons, List.map_cons, List.intercalate_cons_cons, ← List.map_cons, List.length_append,
          List.length_append, List.length_singleton]
      obtain ⟨hcount, hmore⟩ := ih
      refine ⟨by rw [hjoined, List.length_cons]; omega, List.forall_mem_cons.mpr ⟨by omega, fun z hz => ?_⟩⟩
      have hz := hmore z hz
      omega

end Items

/-! ### Values -/

private theorem renderItems_eq (items : List Json) : renderItems items = [','].intercalate (items.map render) := by
  induction items with
  | nil => rfl
  | cons item items ih =>
    cases items with
    | nil => simp [renderItems]
    | cons next items => simp [renderItems, ih]

private theorem renderMembers_eq (members : List (Option Text × Json)) :
    renderMembers members = [','].intercalate (members.map renderMember) := by
  induction members with
  | nil => rfl
  | cons member members ih =>
    cases members with
    | nil => simp [renderMembers]
    | cons next members => simp [renderMembers, ih]

/-- A value begins with neither white space nor a closing bracket. -/
private theorem exists_render_eq_cons (j : Json) : ∃ c t, render j = c :: t ∧ isSpace c = false ∧ c ≠ ']' := by
  cases j with
  | null => exact ⟨_, _, rfl, by decide⟩
  | truth b => cases b <;> exact ⟨_, _, rfl, by decide⟩
  | integer n =>
    obtain ⟨c, t, hdecimal, hc⟩ := exists_decimal_eq_cons n
    refine ⟨c, t, hdecimal, ?_, ?_⟩
    · simp [isSpace, ne_of_isNumber hc]
    · exact ne_of_isNumber hc (by decide) (by decide)
  | fraction => exact ⟨_, _, rfl, by decide⟩
  | text content =>
    obtain ⟨body, hbody, -⟩ := exists_quote_eq_cons content
    exact ⟨_, _, hbody, by decide⟩
  | array items => exact ⟨_, _, rfl, by decide⟩
  | object members => exact ⟨_, _, rfl, by decide⟩

private theorem exists_renderMember_eq_cons (key : Option Text) (value : Json) :
    ∃ c t, renderMember (key, value) = c :: t ∧ isSpace c = false ∧ c ≠ '}' := by
  obtain ⟨body, hbody, -⟩ := exists_quote_eq_cons key
  exact ⟨_, _, by rw [renderMember, hbody]; rfl, by decide⟩

private theorem readsBack_member {read : Text → Option (Json × Text)} {value : Json} (h : ReadsBack read render value)
    (key : Option Text) : ReadsBack (readMember read) renderMember (key, value) := by
  intro rest hrest
  obtain ⟨body, hbody, hread⟩ := exists_quote_eq_cons key
  have hmember : renderMember (key, value) ++ rest = '"' :: (body ++ (':' :: (render value ++ rest))) := by
    simp [renderMember, hbody]
  rw [hmember]
  simp [readMember, skipSpace_cons (c := '"') rfl, skipSpace_cons (c := ':') rfl, hread, h rest hrest]

private theorem readValue_eq_readNumber (fuel : Nat) {c : Char} (hc : c.isDigit = true ∨ c = '-') (t : Text) :
    readValue (fuel + 1) (c :: t) = readNumber (c :: t) := by
  have hspace : isSpace c = false := by simp [isSpace, ne_of_isNumber hc]
  rw [readValue, skipSpace_cons hspace]
  split
  all_goals first
    | rfl
    | next h => exact absurd (List.cons.inj h).1 (ne_of_isNumber hc (by decide) (by decide))

private theorem readNumber_half {rest : Text} (hrest : EndsNumber rest) :
    readNumber ('0' :: '.' :: '5' :: rest) = some (fraction, rest) := by
  have hplaces : readDigits (['5'] ++ rest) = some (['5'], rest) :=
    readDigits_append (List.cons_ne_nil _ _) (List.forall_mem_singleton.mpr rfl) hrest
  rw [List.singleton_append] at hplaces
  have hdigits : readDigits ('0' :: '.' :: '5' :: rest) = some (['0'], '.' :: '5' :: rest) := rfl
  simp [readNumber, readUnsigned, hdigits, readPlaces, hplaces, readExponent_of_endsNumber hrest]

/-- A written value is read back, whatever comes after it. -/
theorem readsBack_render {fuel : Nat} {j : Json} (hfuel : (render j).length < fuel) :
    ReadsBack (readValue fuel) render j := by
  induction fuel generalizing j with
  | zero => omega
  | succ fuel ih =>
    intro rest hrest
    cases j with
    | null => rfl
    | truth b => cases b <;> rfl
    | integer n =>
      obtain ⟨c, t, hdecimal, hc⟩ := exists_decimal_eq_cons n
      have hread := readNumber_decimal n hrest
      rw [hdecimal, List.cons_append] at hread
      rw [render, hdecimal, List.cons_append, readValue_eq_readNumber fuel hc, hread]
    | fraction =>
      have hread := readNumber_half hrest
      rw [← readValue_eq_readNumber fuel (.inl rfl)] at hread
      exact hread
    | text content =>
      obtain ⟨body, hbody, hread⟩ := exists_quote_eq_cons content
      rw [render, hbody, List.cons_append, readValue, skipSpace_cons (by decide)]
      simp [hread]
    | array items =>
      have htext : render (array items) = '[' :: ([','].intercalate (items.map render) ++ [']']) := by
        rw [render, renderItems_eq]
        rfl
      obtain ⟨hcount, hlength⟩ := length_le_intercalate render items
      rw [htext, List.length_cons, List.length_append, List.length_singleton] at hfuel
      have hitems : ∀ item ∈ items, ReadsBack (readValue fuel) render item := by
        intro item hitem
        have hle := hlength item hitem
        exact ih (by omega)
      have hread := readBracketed_intercalate (.inl rfl) hitems (fun item _ => exists_render_eq_cons item)
        (show items.length ≤ fuel by omega) rest
      rw [htext, List.cons_append, List.append_assoc, List.singleton_append, readValue, skipSpace_cons (by decide)]
      simp [hread]
    | object members =>
      have htext : render (object members) = '{' :: ([','].intercalate (members.map renderMember) ++ ['}']) := by
        rw [render, renderMembers_eq]
        rfl
      obtain ⟨hcount, hlength⟩ := length_le_intercalate renderMember members
      rw [htext, List.length_cons, List.length_append, List.length_singleton] at hfuel
      have hmembers : ∀ member ∈ members, ReadsBack (readMember (readValue fuel)) renderMember member := by
        rintro ⟨key, value⟩ hmember
        have hle := hlength _ hmember
        rw [renderMember, List.length_append, List.length_cons] at hle
        exact readsBack_member (ih (by omega)) key
      have hread := readBracketed_intercalate (.inr rfl) hmembers
        (fun member _ => exists_renderMember_eq_cons member.1 member.2) (show members.length ≤ fuel by omega) rest
      rw [htext, List.cons_append, List.append_assoc, List.singleton_append, readValue, skipSpace_cons (by decide)]
      simp [hread]

/-- Reading a document undoes writing it. -/
theorem parse?_render (j : Json) : parse? (render j) = some j := by
  have hread := readsBack_render (Nat.lt_succ_self (render j).length) [] (by rintro c ⟨⟩)
  rw [List.append_nil] at hread
  rw [parse?, hread]
  rfl

end SourceIndex.Json
