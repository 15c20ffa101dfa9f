import SourceIndex.Keyword.Version
import SourceIndex.Proofs.Text.Pattern
import SourceIndex.Proofs.Text.Runs

/-!
# Version numbers

What is read at the front of a text is the first way to read the pattern of version numbers (`first?_numberPattern`),
and it is the longest version number there (`number?_eq_some_iff`).  The way that is tried first may fail: without a
number after it, a group of digits is given up with its point (`number?_group`).  But then no way goes past its digits.
-/

namespace SourceIndex.Version

/-- Whether a text consists of digits and is not empty. -/
def IsDigits (t : Text) : Prop := t ≠ [] ∧ ∀ c ∈ t, c.isDigit = true

/-- Whether a text is a version number: at most so many groups of digits with a point after each, and then a star or
digits. -/
inductive IsNumber : Nat → Text → Prop
  | star (groups : Nat) : IsNumber groups ['*']
  | digits (groups : Nat) {ds : Text} (hds : IsDigits ds) : IsNumber groups ds
  | group {groups : Nat} {ds number : Text} (hds : IsDigits ds) (hnumber : IsNumber groups number) :
      IsNumber (groups + 1) (ds ++ '.' :: number)

theorem IsNumber.succ {groups : Nat} {t : Text} (h : IsNumber groups t) : IsNumber (groups + 1) t := by
  induction h with
  | star groups => exact .star _
  | digits groups hds => exact .digits _ hds
  | group hds _ ih => exact .group hds ih

/-- Version numbers as a pattern. -/
def numberPattern : Nat → Text.Pattern
  | 0 => .either (.char (· == '*')) (.many Char.isDigit)
  | groups + 1 => .seq (.optional (.seq (.many Char.isDigit) (.char (· == '.')))) (numberPattern groups)

/-! ### Reading a number -/

section Reading

variable {groups : Nat} {ds t : Text}

private theorem IsDigits.exists_cons (hds : IsDigits ds) : ∃ c rest, ds = c :: rest ∧ c.isDigit = true ∧ c ≠ '*' := by
  obtain ⟨c, rest, rfl⟩ := List.exists_cons_of_ne_nil hds.1
  have hc : c.isDigit = true := hds.2 c List.mem_cons_self
  refine ⟨c, rest, rfl, hc, ?_⟩
  rintro rfl
  exact absurd hc (by decide)

private theorem exists_digits_append (h : ¬ ∀ c ∈ t.head?, c.isDigit = false) :
    ∃ ds rest, t = ds ++ rest ∧ IsDigits ds ∧ ∀ c ∈ rest.head?, c.isDigit = false := by
  obtain ⟨ds, rest, rfl, hds, hstop⟩ := Text.exists_front_append Char.isDigit t
  refine ⟨ds, rest, rfl, ⟨?_, hds⟩, hstop⟩
  rintro rfl
  exact h hstop

private theorem point_cases (t : Text) : (∃ rest, t = '.' :: rest) ∨ ∀ c ∈ t.head?, c ≠ '.' := by
  by_cases h : t.head? = some '.'
  · exact .inl (List.head?_eq_some_iff.mp h)
  · exact .inr fun c hc hpoint => h (hpoint ▸ hc)

private theorem lastPart?_append (hds : IsDigits ds) (hstop : ∀ c ∈ t.head?, c.isDigit = false) :
    lastPart? (ds ++ t) = some ds := by
  obtain ⟨c, rest, rfl, -, hstar⟩ := hds.exists_cons
  have hhead : ¬ (c :: rest ++ t).head? = some '*' := fun h => hstar (Option.some.inj h)
  simp only [lastPart?, if_neg hhead, Text.takeWhile_run hds.2 hstop]
  rfl

/-- Without a digit in front there is no group to try. -/
theorem number?_of_not_digit (h : ∀ c ∈ t.head?, c.isDigit = false) : number? groups t = lastPart? t := by
  cases groups with
  | zero => rfl
  | succ groups =>
    have hdigits : t.takeWhile Char.isDigit = [] := @Text.takeWhile_run _ [] t (by simp) h
    rw [number?]
    split
    · rw [hdigits]; rfl
    · rfl

theorem number?_star : number? groups ('*' :: t) = some ['*'] := by
  rw [number?_of_not_digit (by simp)]
  rfl

/-- A group is taken if a number follows, and otherwise its digits are the number. -/
theorem number?_group (hds : IsDigits ds) :
    number? (groups + 1) (ds ++ '.' :: t)
      = ((number? groups t).map fun number => ds ++ '.' :: number).or (some ds) := by
  have hstop : ∀ c ∈ ('.' :: t).head?, c.isDigit = false := by simp
  have hne : ¬ ds.isEmpty = true := by simpa using hds.1
  rw [number?, Text.dropWhile_run hds.2 hstop]
  simp only [Text.takeWhile_run hds.2 hstop, lastPart?_append hds hstop, if_neg hne]

theorem number?_digits (hds : IsDigits ds) (hstop : ∀ c ∈ t.head?, c.isDigit = false ∧ c ≠ '.') :
    number? groups (ds ++ t) = some ds := by
  have hdigit : ∀ c ∈ t.head?, c.isDigit = false := fun c hc => (hstop c hc).1
  cases groups with
  | zero => exact lastPart?_append hds hdigit
  | succ groups =>
    rw [number?, Text.dropWhile_run hds.2 hdigit]
    split
    · exact absurd rfl (hstop '.' rfl).2
    · exact lastPart?_append hds hdigit

/-- Digits in front belong to the number. -/
theorem exists_number?_append (hds : IsDigits ds) (hstop : ∀ c ∈ t.head?, c.isDigit = false) :
    ∃ number, number? groups (ds ++ t) = some number ∧ ds <+: number := by
  rcases point_cases t with ⟨rest, rfl⟩ | hother
  · cases groups with
    | zero => exact ⟨ds, lastPart?_append hds hstop, List.prefix_rfl⟩
    | succ groups =>
      rw [number?_group hds]
      cases number? groups rest with
      | none => exact ⟨ds, rfl, List.prefix_rfl⟩
      | some number => exact ⟨_, rfl, List.prefix_append ds _⟩
  · exact ⟨ds, number?_digits hds fun c hc => ⟨hstop c hc, hother c hc⟩, List.prefix_rfl⟩

/-- A number is read just where a digit or a star stands. -/
theorem isSome_number? (groups : Nat) (t : Text) :
    (number? groups t).isSome = t.head?.any fun c => c.isDigit || c == '*' := by
  induction t using Text.run_induction Char.isDigit with
  | nil =>
    rw [number?_of_not_digit (by simp)]
    rfl
  | other c t hc =>
    rw [number?_of_not_digit (by simpa using hc)]
    by_cases hstar : c = '*'
    · simp [lastPart?, hstar]
    · simp [lastPart?, hstar, hc]
  | run ds t hne hdigits hstop =>
    obtain ⟨number, hnumber, -⟩ := @exists_number?_append groups ds t ⟨hne, hdigits⟩ hstop
    obtain ⟨c, rest, hcons⟩ := List.exists_cons_of_ne_nil hne
    have hc : c.isDigit = true := hdigits c (hcons ▸ List.mem_cons_self)
    rw [hnumber, hcons, List.cons_append, List.head?_cons]
    simp [hc]

/-- Without a number after it, a group is given up, whether another one may follow or not. -/
private theorem number?_group_of_none (hds : IsDigits ds) (h : number? groups t = none) :
    number? groups (ds ++ '.' :: t) = some ds := by
  cases groups with
  | zero => exact lastPart?_append hds (by simp)
  | succ groups =>
    have hnone : number? groups t = none := by
      rw [← Option.isNone_iff_eq_none, ← Option.not_isSome, isSome_number?] at h ⊢
      exact h
    rw [number?_group hds, hnone]
    rfl

end Reading

/-! ### The pattern of numbers -/

theorem isNumber_of_accepts {groups : Nat} {t : Text} (h : (numberPattern groups).Accepts t) : IsNumber groups t := by
  induction groups generalizing t with
  | zero =>
    rcases h with ⟨c, hc, rfl⟩ | hds
    · exact beq_iff_eq.mp hc ▸ .star 0
    · exact .digits 0 hds
  | succ groups ih =>
    obtain ⟨front, number, hfront, hnumber, rfl⟩ := h
    rcases hfront with ⟨ds, dot, hds, ⟨c, hc, rfl⟩, rfl⟩ | rfl
    · rw [beq_iff_eq.mp hc, List.append_assoc]
      exact .group hds (ih hnumber)
    · exact (ih hnumber).succ

/-! ### The first way to read a number -/

private theorem first?_numberPattern_zero (t : Text) : (numberPattern 0).first? t = lastPart? t := by
  rw [numberPattern, Text.Pattern.first?_either]
  by_cases hdigit : ∀ c ∈ t.head?, c.isDigit = false
  · rw [Text.Pattern.first?_many_of_neg hdigit, Option.or_none]
    cases t with
    | nil => rfl
    | cons c t =>
      by_cases hstar : c = '*'
      · simp [lastPart?, hstar, Text.Pattern.first?, Text.Pattern.matchings]
      · simp [lastPart?, hstar, hdigit c rfl, Text.Pattern.first?, Text.Pattern.matchings]
  · obtain ⟨ds, rest, rfl, hds, hstop⟩ := exists_digits_append hdigit
    obtain ⟨c, ds', hcons, -, hstar⟩ := hds.exists_cons
    have hnone : (Text.Pattern.char (· == '*')).first? (ds ++ rest) = none := by
      simp [hcons, hstar, Text.Pattern.first?, Text.Pattern.matchings]
    rw [hnone, Text.Pattern.first?_many_append hds.1 hds.2 hstop, lastPart?_append hds hstop]
    rfl

/-- A group is all digits in front and the point after them, and then the rest of the number is tried. -/
private theorem matchings_group {groups : Nat} {ds rest : Text} (hds : IsDigits ds)
    (hstop : ∀ c ∈ rest.head?, c.isDigit = false) :
    (Text.Pattern.seq (.many Char.isDigit) (.seq (.char (· == '.')) (numberPattern groups))).matchings (ds ++ rest)
      = ((Text.Pattern.seq (.char (· == '.')) (numberPattern groups)).matchings rest).map (ds ++ ·) := by
  refine Text.Pattern.matchings_many_seq_append (fun c t hc => ?_) hds.1 hds.2 hstop
  refine Text.Pattern.matchings_char_seq_of_neg fun d hd => ?_
  obtain rfl : c = d := Option.some.inj hd
  exact beq_eq_false_iff_ne.mpr fun h => absurd (h ▸ hc) (by decide)

/-- The number that is read is the first way to read the pattern. -/
theorem first?_numberPattern (groups : Nat) (t : Text) : (numberPattern groups).first? t = number? groups t := by
  induction groups generalizing t with
  | zero => exact first?_numberPattern_zero t
  | succ groups ih =>
    rw [numberPattern, Text.Pattern.first?_optional_seq, ih, Text.Pattern.first?, Text.Pattern.matchings_seq_seq]
    by_cases hdigit : ∀ c ∈ t.head?, c.isDigit = false
    · rw [Text.Pattern.matchings_many_seq_of_neg hdigit, number?_of_not_digit hdigit, number?_of_not_digit hdigit]
      rfl
    · obtain ⟨ds, rest, rfl, hds, hstop⟩ := exists_digits_append hdigit
      rw [matchings_group hds hstop]
      rcases point_cases rest with ⟨next, rfl⟩ | hother
      · rw [Text.Pattern.matchings_char_seq_cons rfl, List.map_map, List.head?_map, ← Text.Pattern.first?, ih,
          number?_group hds]
        cases hnext : number? groups next with
        | some number => rfl
        | none =>
          rw [number?_group_of_none hds hnext]
          rfl
      · have hend : ∀ c ∈ rest.head?, c.isDigit = false ∧ c ≠ '.' := fun c hc => ⟨hstop c hc, hother c hc⟩
        rw [Text.Pattern.matchings_char_seq_of_neg fun c hc => beq_eq_false_iff_ne.mpr (hother c hc),
          number?_digits hds hend, number?_digits hds hend]
        rfl

/-! ### The longest number -/

/-- No number in front of a text is longer than the one that is read. -/
theorem IsNumber.exists_number? {groups : Nat} {v t : Text} (h : IsNumber groups v) (hv : v <+: t) :
    ∃ u, number? groups t = some u ∧ v.length ≤ u.length := by
  induction h generalizing t with
  | star groups =>
    obtain ⟨rest, rfl⟩ := hv
    exact ⟨['*'], number?_star, le_rfl⟩
  | @digits groups ds hds =>
    -- the digits may go on behind the ones of the number
    have hlonger : ds <+: t.takeWhile Char.isDigit := Text.prefix_takeWhile hds.2 hv
    have hrun : IsDigits (t.takeWhile Char.isDigit) :=
      ⟨fun hnil => hds.1 (List.prefix_nil.mp (hnil ▸ hlonger)), fun c => List.mem_takeWhile_imp⟩
    obtain ⟨u, hu, hprefix⟩ := @exists_number?_append groups _ _ hrun (Text.head?_dropWhile_eq_false t)
    rw [List.takeWhile_append_dropWhile] at hu
    exact ⟨u, hu, (hlonger.trans hprefix).length_le⟩
  | @group groups ds number hds _ ih =>
    obtain ⟨rest, rfl⟩ := hv
    obtain ⟨u, hu, hle⟩ := ih (List.prefix_append number rest)
    rw [List.append_assoc, List.cons_append, number?_group hds, hu]
    refine ⟨_, rfl, ?_⟩
    simpa using hle

theorem number?_eq_some_iff {groups : Nat} {t u : Text} :
    number? groups t = some u ↔ Text.IsLongestFront (IsNumber groups) t u := by
  have hread : ∀ {u}, number? groups t = some u → IsNumber groups u ∧ u <+: t := by
    intro u hu
    rw [← first?_numberPattern] at hu
    obtain ⟨haccepts, hprefix⟩ := Text.Pattern.mem_matchings_iff.mp (List.mem_of_head? hu)
    exact ⟨isNumber_of_accepts haccepts, hprefix⟩
  have hlongest : ∀ {u}, number? groups t = some u → Text.IsLongestFront (IsNumber groups) t u := by
    intro u hu
    refine ⟨(hread hu).1, (hread hu).2, fun v hv hprefix => ?_⟩
    obtain ⟨u', hu', hle⟩ := hv.exists_number? hprefix
    rwa [Option.some.inj (hu.symm.trans hu')]
  refine ⟨hlongest, fun h => ?_⟩
  obtain ⟨u', hu', -⟩ := h.holds.exists_number? h.front_prefix
  rw [hu', h.unique (hlongest hu')]

end SourceIndex.Version
