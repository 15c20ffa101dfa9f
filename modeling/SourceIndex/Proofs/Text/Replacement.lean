import Mathlib.Data.List.Infix
import SourceIndex.Proofs.Text.LowercaseLetters
import SourceIndex.Text.Replace

/-!
# What a replacement changes

A replacement by a shorter text makes a text shorter for each occurrence of the pattern, and leaves it alone if there
is none.  Lowercasing hides neither, because it changes the length of a text only where there is a dotted capital I
(`length_lowercase`).  So a replaced text is the text it comes from, regardless of case, only if it has no occurrence
of the pattern (`lowercase_replaceAll_eq_iff`).  The parts of a text are replaced one by one, unless an occurrence lies
across a border (`replaceAll_append_of_not_continues`).
-/

namespace SourceIndex.Text

variable {pattern : Text}

/-- The three ways in which `replaceAll` goes on: the text is at its end, the pattern stands at its front, or it does
not. -/
theorem replaceAll_induction (hne : pattern ≠ []) {motive : Text → Prop} (nil : motive [])
    (found : ∀ rest, motive rest → motive (pattern ++ rest))
    (other : ∀ c rest, ¬ pattern <+: c :: rest → motive rest → motive (c :: rest)) (t : Text) : motive t := by
  induction hn : t.length using Nat.strong_induction_on generalizing t with
  | _ n ih =>
    cases t with
    | nil => exact nil
    | cons c rest =>
      subst hn
      by_cases hfront : pattern <+: c :: rest
      · obtain ⟨rest', hrest⟩ := hfront
        rw [← hrest]
        refine found rest' (ih rest'.length ?_ rest' rfl)
        have hpos := List.length_pos_iff.mpr hne
        have hlength := congrArg List.length hrest
        rw [List.length_append] at hlength
        omega
      · exact other c rest hfront (ih rest.length (Nat.lt_succ_self _) rest rfl)

theorem replaceAll_eq_self {t : Text} (h : ¬ pattern <:+: t) (replacement : Text) :
    replaceAll pattern replacement t = t := by
  induction t with
  | nil => rfl
  | cons c t ih =>
    rw [List.infix_cons_iff, not_or] at h
    rw [replaceAll_cons h.1, ih h.2]

theorem replaceAll_eq_nil_iff (hne : pattern ≠ []) {replacement : Text} (hreplacement : replacement ≠ []) {t : Text} :
    replaceAll pattern replacement t = [] ↔ t = [] := by
  induction t using replaceAll_induction hne with
  | nil => simp
  | found rest _ => simp [replaceAll_append hne, hne, hreplacement]
  | other c rest hfront _ => simp [replaceAll_cons hfront]

theorem count_replaceAll (hne : pattern ≠ []) {replacement : Text} {d : Char} (hpattern : d ∉ pattern)
    (hreplacement : d ∉ replacement) (t : Text) : (replaceAll pattern replacement t).count d = t.count d := by
  induction t using replaceAll_induction hne with
  | nil => rfl
  | found rest ih =>
    rw [replaceAll_append hne, List.count_append, List.count_append, ih, List.count_eq_zero_of_not_mem hpattern,
      List.count_eq_zero_of_not_mem hreplacement]
  | other c rest hfront ih => rw [replaceAll_cons hfront, List.count_cons, List.count_cons, ih]

variable {replacement : Text}

theorem length_replaceAll_le (h : replacement.length < pattern.length) (t : Text) :
    (replaceAll pattern replacement t).length ≤ t.length := by
  have hne : pattern ≠ [] := List.ne_nil_of_length_pos (by omega)
  induction t using replaceAll_induction hne with
  | nil => simp
  | found rest ih =>
    rw [replaceAll_append hne, List.length_append, List.length_append]
    omega
  | other c rest hfront ih =>
    rw [replaceAll_cons hfront]
    simpa using ih

theorem length_replaceAll_lt (h : replacement.length < pattern.length) {t : Text} (hmem : pattern <:+: t) :
    (replaceAll pattern replacement t).length < t.length := by
  have hne : pattern ≠ [] := List.ne_nil_of_length_pos (by omega)
  induction t using replaceAll_induction hne with
  | nil => exact absurd (List.infix_nil.mp hmem) hne
  | found rest _ =>
    have hle := length_replaceAll_le h rest
    rw [replaceAll_append hne, List.length_append, List.length_append]
    omega
  | other c rest hfront ih =>
    have hrest := ih ((List.infix_cons_iff.mp hmem).resolve_left hfront)
    rw [replaceAll_cons hfront]
    simpa using hrest

theorem replaceAll_eq_self_iff (h : replacement.length < pattern.length) {t : Text} :
    replaceAll pattern replacement t = t ↔ ¬ pattern <:+: t := by
  refine ⟨fun hself hmem => ?_, fun hfree => replaceAll_eq_self hfree replacement⟩
  have hlt := length_replaceAll_lt h hmem
  rw [hself] at hlt
  exact hlt.false

theorem lowercase_replaceAll_eq_iff (h : replacement.length < pattern.length) (hpattern : 'İ' ∉ pattern)
    (hreplacement : 'İ' ∉ replacement) {t : Text} :
    lowercase (replaceAll pattern replacement t) = lowercase t ↔ ¬ pattern <:+: t := by
  have hne : pattern ≠ [] := List.ne_nil_of_length_pos (by omega)
  constructor
  · intro heq hmem
    have hlength := congrArg List.length heq
    have hlt := length_replaceAll_lt h hmem
    rw [length_lowercase, length_lowercase, count_replaceAll hne hpattern hreplacement] at hlength
    omega
  · intro hfree
    rw [replaceAll_eq_self hfree]

/-! ### Parts of a text -/

/-- Whether a text can go on with an occurrence of the pattern that begins in front of it. -/
def Continues (pattern rest : Text) : Prop := ∃ back ∈ pattern.tail.tails, back ≠ [] ∧ back <+: rest

instance (pattern rest : Text) : Decidable (Continues pattern rest) :=
  inferInstanceAs (Decidable (∃ back ∈ pattern.tail.tails, back ≠ [] ∧ back <+: rest))

/-- Where no occurrence lies across the border, the parts are replaced one by one. -/
theorem replaceAll_append_of_not_continues (hne : pattern ≠ []) {rest : Text} (h : ¬ Continues pattern rest)
    (t : Text) :
    replaceAll pattern replacement (t ++ rest)
      = replaceAll pattern replacement t ++ replaceAll pattern replacement rest := by
  induction t using replaceAll_induction hne with
  | nil => rfl
  | found t ih => rw [List.append_assoc, replaceAll_append hne, replaceAll_append hne, ih, List.append_assoc]
  | other c t hfront ih =>
    have hfront' : ¬ pattern <+: c :: (t ++ rest) := by
      rintro ⟨after, hafter⟩
      have hwhole : pattern ++ after = (c :: t) ++ rest := hafter
      rcases List.append_eq_append_iff.mp hwhole with ⟨middle, hmiddle, -⟩ | ⟨back, hback, hrest⟩
      · exact hfront ⟨middle, hmiddle.symm⟩
      · cases back with
        | nil => exact hfront ⟨[], by simp [hback]⟩
        | cons d back =>
          refine h ⟨d :: back, ?_, List.cons_ne_nil d back, after, hrest.symm⟩
          rw [List.mem_tails, hback]
          exact List.suffix_append t (d :: back)
    rw [List.cons_append, replaceAll_cons hfront', replaceAll_cons hfront, ih, List.cons_append]

theorem replaceAll_append_of_notMem {c : Char} {t : Text} (h : c ∉ t) (rest : Text) :
    replaceAll (c :: pattern) replacement (t ++ rest) = t ++ replaceAll (c :: pattern) replacement rest := by
  induction t with
  | nil => rfl
  | cons d t ih =>
    rw [List.mem_cons, not_or] at h
    have hfront : ¬ c :: pattern <+: d :: (t ++ rest) := fun hprefix => h.1 (List.cons_prefix_cons.mp hprefix).1
    rw [List.cons_append, replaceAll_cons hfront, ih h.2, List.cons_append]

end SourceIndex.Text
