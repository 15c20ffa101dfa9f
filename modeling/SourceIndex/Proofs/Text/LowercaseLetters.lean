import SourceIndex.Text.Lowercase

/-!
# The characters of a lowercased text

Lowercasing writes small letters only, which are those of ASCII or come after ASCII.  So any other character of a
lowercased text stood in the text and is no capital of ASCII (`mem_lowercase_cases`).  Every character becomes one
character but the dotted capital I, which becomes two (`length_lowercase`).  What is written is no capital again, so
that lowercasing twice is lowercasing once (`lowercase_lowercase`).  A text of ASCII is lowercased character by
character (`lowercase_of_ascii`).
-/

namespace SourceIndex.Text

theorem isUpper_iff {c : Char} : c.isUpper = true ↔ 0x41 ≤ c.toNat ∧ c.toNat ≤ 0x5A := by
  show decide (c.val ≥ 'A'.val ∧ c.val ≤ 'Z'.val) = true ↔ _
  rw [decide_eq_true_iff]
  rfl

theorem isLower_iff {c : Char} : c.isLower = true ↔ 0x61 ≤ c.toNat ∧ c.toNat ≤ 0x7A := by
  show (decide (c.val ≥ 'a'.val) && decide (c.val ≤ 'z'.val)) = true ↔ _
  rw [Bool.and_eq_true, decide_eq_true_iff, decide_eq_true_iff]
  rfl

theorem isAlphanum_bounds {c : Char} (h : c.isAlphanum = true) :
    0x30 ≤ c.toNat ∧ c.toNat ≤ 0x39 ∨ 0x41 ≤ c.toNat ∧ c.toNat ≤ 0x5A ∨ 0x61 ≤ c.toNat ∧ c.toNat ≤ 0x7A := by
  have hkinds : (c.isUpper || c.isLower || c.isDigit) = true := h
  have hdigit : c.isDigit = true ↔ 0x30 ≤ c.toNat ∧ c.toNat ≤ 0x39 := Char.isDigit_iff_toNat
  rw [Bool.or_eq_true, Bool.or_eq_true, isUpper_iff, isLower_iff, hdigit] at hkinds
  omega

namespace Lowercase

private theorem toNat_ofNat {n : Nat} (h : n.isValidChar) : (Char.ofNat n).toNat = n := by
  rw [Char.ofNat, dif_pos h]
  rfl

/-- The small letters of every run of the table are those of ASCII or characters after ASCII. -/
private theorem capitals_bounds : ∀ run ∈ capitals,
    (0x61 ≤ run.lower ∧ run.lower + (run.last - run.first) ≤ 0x7A ∨ 0x80 ≤ run.lower) ∧
    (run.lower + (run.last - run.first) < 0xD800 ∨
      0xDFFF < run.lower ∧ run.lower + (run.last - run.first) < 0x110000) := by
  decide +kernel

private theorem lower?_bounds {run : CaseRun} (hrun : run ∈ capitals) {code lower : Nat}
    (h : run.lower? code = some lower) : (0x61 ≤ lower ∧ lower ≤ 0x7A ∨ 0x80 ≤ lower) ∧ lower.isValidChar := by
  have hbounds := capitals_bounds run hrun
  unfold CaseRun.lower? at h
  split at h
  · rw [Option.some.injEq] at h
    unfold Nat.isValidChar
    omega
  · simp at h

/-- A character with no small letter in the table is no capital of ASCII. -/
private theorem simple_cases (c : Char) :
    simple c = c ∧ c.isUpper = false ∨ (simple c).isLower = true ∨ 0x80 ≤ (simple c).toNat := by
  unfold simple
  cases hcode : capitals.findSome? (·.lower? c.toNat) with
  | some code =>
    right
    obtain ⟨run, hrun, hlower⟩ := List.exists_of_findSome?_eq_some hcode
    obtain ⟨hletter, hvalid⟩ := lower?_bounds hrun hlower
    rw [isLower_iff]
    simpa [toNat_ofNat hvalid] using hletter
  | none =>
    left
    refine ⟨rfl, ?_⟩
    rw [← Bool.not_eq_true, isUpper_iff]
    intro hupper
    -- the capitals of ASCII are the first run of the table
    have hfirst : (⟨0x41, 0x5A, 1, 0x61⟩ : CaseRun) ∈ capitals := List.mem_cons_self
    have hnone := List.findSome?_eq_none_iff.mp hcode _ hfirst
    simp [CaseRun.lower?, hupper, Nat.mod_one] at hnone

theorem mem_expand {casedBefore : Bool} {c d : Char} {rest : Text} (h : d ∈ expand casedBefore c rest) :
    d = c ∧ d.isUpper = false ∨ d.isLower = true ∨ 0x80 ≤ d.toNat := by
  unfold expand at h
  split at h
  · right
    rcases List.mem_cons.mp h with rfl | h
    · decide
    · rw [List.mem_singleton.mp h]
      decide
  · split at h
    · right
      split at h <;> rw [List.mem_singleton.mp h] <;> decide
    · rw [List.mem_singleton.mp h]
      rcases simple_cases c with ⟨hsame, hupper⟩ | hletter
      · left
        rw [hsame]
        exact ⟨rfl, hupper⟩
      · right
        exact hletter

private theorem exists_mem_expand_of_mem_run {casedBefore : Bool} {t : Text} {d : Char} (h : d ∈ run casedBefore t) :
    ∃ c ∈ t, ∃ before rest, d ∈ expand before c rest := by
  induction t generalizing casedBefore with
  | nil => simp [run] at h
  | cons c t ih =>
    unfold run at h
    rcases List.mem_append.mp h with h | h
    · exact ⟨c, List.mem_cons_self, casedBefore, t, h⟩
    · obtain ⟨c', hc', hexpand⟩ := ih h
      exact ⟨c', List.mem_cons_of_mem c hc', hexpand⟩

theorem length_expand (casedBefore : Bool) (c : Char) (rest : Text) :
    (expand casedBefore c rest).length = 1 + if c = 'İ' then 1 else 0 := by
  unfold expand
  by_cases hdotted : c = 'İ'
  · simp [hdotted]
  · rw [if_neg hdotted, if_neg hdotted]
    split
    · split <;> rfl
    · rfl

theorem length_run (casedBefore : Bool) (t : Text) :
    (run casedBefore t).length = t.length + t.count 'İ' := by
  induction t generalizing casedBefore with
  | nil => rfl
  | cons c t ih =>
    rw [run, List.length_append, length_expand, ih, List.length_cons, List.count_cons]
    by_cases hdotted : c = 'İ'
    · simp [hdotted]
      omega
    · simp [hdotted]
      omega

/-! ### ASCII -/

private theorem simple_ofNat (n : Fin 0x80) : simple (Char.ofNat n) = (Char.ofNat n).toLower := by
  decide +revert +kernel

private theorem simple_of_lt {c : Char} (h : c.toNat < 0x80) : simple c = c.toLower := by
  have hcode := simple_ofNat ⟨c.toNat, h⟩
  rwa [Char.ofNat_toNat] at hcode

theorem expand_of_lt {c : Char} (h : c.toNat < 0x80) (casedBefore : Bool) (rest : Text) :
    expand casedBefore c rest = [c.toLower] := by
  have hdotted : c ≠ 'İ' := by
    rintro rfl
    exact absurd h (by decide)
  have hsigma : c ≠ 'Σ' := by
    rintro rfl
    exact absurd h (by decide)
  unfold expand
  rw [if_neg hdotted, if_neg hsigma, simple_of_lt h]

private theorem run_of_forall_lt {t : Text} (h : ∀ c ∈ t, c.toNat < 0x80) (casedBefore : Bool) :
    run casedBefore t = t.map Char.toLower := by
  induction t generalizing casedBefore with
  | nil => rfl
  | cons c t ih =>
    obtain ⟨hc, ht⟩ := List.forall_mem_cons.mp h
    rw [run, expand_of_lt hc, ih ht]
    rfl

/-! ### Characters that stay -/

/-- The dotted capital I as a run of one code point. -/
private def dottedRun : CaseRun := ⟨0x130, 0x130, 2, 0x69⟩

/-- Whether the small letters of a run stand before, after or between the capitals of another one. -/
private def CaseRun.avoids (run other : CaseRun) : Bool :=
  (run.lower + (run.last - run.first)).blt other.first || other.last.blt run.lower ||
    ((run.step.beq 2 || run.first.beq run.last) && other.step.beq 2 && !(run.lower % 2).beq (other.first % 2))

private theorem capitals_avoid :
    (capitals.all fun run => (dottedRun :: capitals).all fun other => run.avoids other) = true := by
  decide +kernel

private theorem CaseRun.lower?_lower {run other : CaseRun} (h : run.avoids other = true) {code lower : Nat}
    (hlower : run.lower? code = some lower) : other.lower? lower = none := by
  unfold CaseRun.lower? at hlower ⊢
  split at hlower
  · next hcode =>
    obtain ⟨hfirst, hlast, hstep⟩ := hcode
    rw [Option.some.injEq] at hlower
    refine if_neg ?_
    rintro ⟨hfirst', hlast', hstep'⟩
    simp only [avoids, Nat.blt_eq, Nat.beq_eq, Bool.or_eq_true, Bool.and_eq_true, Bool.not_eq_true',
      ← Bool.not_eq_true] at h
    rcases h with (hbefore | hafter) | ⟨⟨hsteps | hsingle, htwo⟩, hparity⟩
    · omega
    · omega
    · rw [hsteps] at hstep
      rw [htwo] at hstep'
      omega
    · rw [htwo] at hstep'
      omega
  · simp at hlower

/-- No small letter of the table is a capital of the table, nor the dotted capital I. -/
private theorem lower?_lower {run : CaseRun} (hrun : run ∈ capitals) {code lower : Nat}
    (h : run.lower? code = some lower) : ∀ other ∈ dottedRun :: capitals, other.lower? lower = none := by
  intro other hother
  have havoids := List.all_eq_true.mp (List.all_eq_true.mp capitals_avoid run hrun) other hother
  exact CaseRun.lower?_lower havoids h

/-- A character that is no capital, wherever it stands. -/
structure IsSmall (c : Char) : Prop where
  simple_eq : simple c = c
  ne_dotted : c ≠ 'İ'

private theorem isSmall_simple {c : Char} (h : c ≠ 'İ') : IsSmall (simple c) := by
  unfold simple
  cases hcode : capitals.findSome? (·.lower? c.toNat) with
  | some code =>
    obtain ⟨run, hrun, hlower⟩ := List.exists_of_findSome?_eq_some hcode
    have hchar := toNat_ofNat (lower?_bounds hrun hlower).2
    have hnone := lower?_lower hrun hlower
    constructor
    · have hfree : capitals.findSome? (·.lower? (Char.ofNat code).toNat) = none := by
        rw [List.findSome?_eq_none_iff, hchar]
        exact fun other hother => hnone other (List.mem_cons_of_mem _ hother)
      unfold simple
      rw [hfree]
    · intro hdotted
      have hcode : code = 0x130 := by
        rw [← hchar]
        exact congrArg Char.toNat hdotted
      have hfree := hnone dottedRun List.mem_cons_self
      rw [hcode] at hfree
      exact absurd hfree (by decide)
  | none =>
    constructor
    · unfold simple
      rw [hcode]
    · exact h

private theorem isSmall_of_mem_expand {casedBefore : Bool} {c d : Char} {rest : Text}
    (h : d ∈ expand casedBefore c rest) : IsSmall d := by
  unfold expand at h
  split at h
  · rcases List.mem_cons.mp h with rfl | h
    · exact ⟨by decide +kernel, by decide⟩
    · rw [List.mem_singleton.mp h]
      exact ⟨by decide +kernel, by decide⟩
  · next hdotted =>
    split at h
    · split at h <;> rw [List.mem_singleton.mp h] <;> exact ⟨by decide +kernel, by decide⟩
    · rw [List.mem_singleton.mp h]
      exact isSmall_simple hdotted

private theorem expand_of_isSmall {c : Char} (h : IsSmall c) (casedBefore : Bool) (rest : Text) :
    expand casedBefore c rest = [c] := by
  have hsigma : c ≠ 'Σ' := by
    rintro rfl
    exact absurd h.simple_eq (by decide +kernel)
  unfold expand
  rw [if_neg h.ne_dotted, if_neg hsigma, h.simple_eq]

private theorem run_of_forall_isSmall {t : Text} (h : ∀ c ∈ t, IsSmall c) (casedBefore : Bool) :
    run casedBefore t = t := by
  induction t generalizing casedBefore with
  | nil => rfl
  | cons c t ih =>
    obtain ⟨hc, ht⟩ := List.forall_mem_cons.mp h
    rw [run, expand_of_isSmall hc, ih ht]
    rfl

end Lowercase

/-- A character of a lowercased text is a character of the text that is no capital of ASCII, a small letter of ASCII or
a character after ASCII. -/
theorem mem_lowercase_cases {t : Text} {c : Char} (h : c ∈ lowercase t) :
    c ∈ t ∧ c.isUpper = false ∨ c.isLower = true ∨ 0x80 ≤ c.toNat := by
  obtain ⟨d, hd, before, rest, hexpand⟩ := Lowercase.exists_mem_expand_of_mem_run h
  rcases Lowercase.mem_expand hexpand with ⟨rfl, hupper⟩ | hletter
  · exact .inl ⟨hd, hupper⟩
  · exact .inr hletter

theorem mem_lowercase {t : Text} {c : Char} (h : c ∈ lowercase t) : c ∈ t ∧ c.isUpper = false ∨ 0x61 ≤ c.toNat := by
  refine (mem_lowercase_cases h).imp_right ?_
  rw [isLower_iff]
  omega

/-- Only the dotted capital I becomes longer. -/
theorem length_lowercase (t : Text) : (lowercase t).length = t.length + t.count 'İ' := Lowercase.length_run false t

theorem lowercase_ne_nil {t : Text} (h : t ≠ []) : lowercase t ≠ [] := by
  have hlength := length_lowercase t
  have hpos := List.length_pos_iff.mpr h
  exact List.ne_nil_of_length_pos (by omega)

theorem lowercase_eq_nil_iff {t : Text} : lowercase t = [] ↔ t = [] := by
  cases t with
  | nil => exact iff_of_true rfl rfl
  | cons c t => exact iff_of_false (lowercase_ne_nil (List.cons_ne_nil c t)) (List.cons_ne_nil c t)

theorem isSmall_of_mem_lowercase {t : Text} {c : Char} (h : c ∈ lowercase t) : Lowercase.IsSmall c := by
  obtain ⟨d, -, before, rest, hexpand⟩ := Lowercase.exists_mem_expand_of_mem_run h
  exact Lowercase.isSmall_of_mem_expand hexpand

/-- A text of ASCII is lowercased character by character. -/
theorem lowercase_of_ascii {t : Text} (h : ∀ c ∈ t, c.toNat < 0x80) : lowercase t = t.map Char.toLower :=
  Lowercase.run_of_forall_lt h false

/-- A text without capitals is in lowercase already. -/
theorem lowercase_eq_self {t : Text} (h : ∀ c ∈ t, Lowercase.IsSmall c) : lowercase t = t :=
  Lowercase.run_of_forall_isSmall h false

theorem lowercase_lowercase (t : Text) : lowercase (lowercase t) = lowercase t :=
  lowercase_eq_self fun _ => isSmall_of_mem_lowercase

end SourceIndex.Text
