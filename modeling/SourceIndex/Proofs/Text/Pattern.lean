import Mathlib.Data.List.Infix
import SourceIndex.Text.Basic

/-!
# Patterns

A pattern is read at a place of a text by trying its ways one after the other (`Pattern.matchings`), and the first way
that succeeds is taken, whether it is the longest one or not.  A text is searched from left to right, and on behind
what is found (`Pattern.finds`).  What is tried is what the pattern accepts as a front of the text
(`Pattern.mem_matchings_iff`), so the order of the ways is all that searching adds to the language of a pattern.  Where
the order does not matter, what is found is the longest front of its kind (`IsLongestFront`), of which there is one.
-/

namespace SourceIndex.Text

/-- A pattern without unbounded repetition of other patterns than single characters. -/
inductive Pattern
  | char (p : Char → Bool)
  | many (p : Char → Bool)
  | optional (r : Pattern)
  | seq (r s : Pattern)
  | either (r s : Pattern)

/-- The fronts of a text made of characters satisfying `p`, the longest first and without the empty one. -/
def frontsOf (p : Char → Bool) : Text → List Text
  | [] => []
  | c :: t => if p c then (frontsOf p t).map (c :: ·) ++ [[c]] else []

namespace Pattern

/-- The texts that a pattern stands for. -/
def Accepts : Pattern → Text → Prop
  | char p, w => ∃ c, p c = true ∧ w = [c]
  | many p, w => w ≠ [] ∧ ∀ c ∈ w, p c = true
  | optional r, w => r.Accepts w ∨ w = []
  | seq r s, w => ∃ u v, r.Accepts u ∧ s.Accepts v ∧ w = u ++ v
  | either r s, w => r.Accepts w ∨ s.Accepts w

/-- The fronts of a text that a pattern is read as, in the order in which they are tried: more characters before fewer,
an option before its absence, and the left alternative before the right one. -/
def matchings : Pattern → Text → List Text
  | char _, [] => []
  | char p, c :: _ => if p c then [[c]] else []
  | many p, t => frontsOf p t
  | optional r, t => r.matchings t ++ [[]]
  | seq r s, t => (r.matchings t).flatMap fun u => (s.matchings (t.drop u.length)).map (u ++ ·)
  | either r s, t => r.matchings t ++ s.matchings t

/-- The front of a text that a pattern is read as. -/
def first? (r : Pattern) (t : Text) : Option Text := (r.matchings t).head?

/-- What `finds` gives for a text without its first `n` characters. -/
def findsAfter (r : Pattern) : Nat → Text → List Text
  | _, [] => []
  | n + 1, _ :: t => findsAfter r n t
  | 0, c :: t =>
    match r.first? (c :: t) with
    | some (d :: word) => (d :: word) :: findsAfter r word.length t
    | _ => findsAfter r 0 t

/-- The parts of a text that a search for a pattern stops at, from left to right.  Each begins at the first place behind
the one before at which the pattern can be read as a front that is not empty. -/
def finds (r : Pattern) (t : Text) : List Text := findsAfter r 0 t

/-! ### The language of a pattern -/

private theorem mem_frontsOf_iff {p : Char → Bool} {t w : Text} :
    w ∈ frontsOf p t ↔ (w ≠ [] ∧ ∀ c ∈ w, p c = true) ∧ w <+: t := by
  induction t generalizing w with
  | nil => simp +contextual [frontsOf]
  | cons c t ih =>
    cases w with
    | nil =>
      rw [frontsOf]
      split <;> simp
    | cons d w =>
      rw [List.cons_prefix_cons, frontsOf]
      split
      · next hc =>
        have hfront : w ∈ frontsOf p t ∨ w = [] ↔ (∀ e ∈ w, p e = true) ∧ w <+: t := by
          rw [ih]
          by_cases hw : w = []
          · simp [hw]
          · simp [hw]
        simp only [List.mem_append, List.mem_map, List.cons.injEq, List.mem_singleton, List.forall_mem_cons]
        grind
      · next hc =>
        simp only [List.not_mem_nil, List.forall_mem_cons, false_iff]
        rintro ⟨⟨-, hd, -⟩, rfl, -⟩
        exact hc hd

private theorem append_prefix_iff {u v t : Text} : u ++ v <+: t ↔ u <+: t ∧ v <+: t.drop u.length := by
  constructor
  · rintro ⟨rest, rfl⟩
    rw [List.append_assoc]
    exact ⟨List.prefix_append _ _, by simp⟩
  · rintro ⟨⟨rest, rfl⟩, h⟩
    rw [List.drop_left] at h
    exact (List.prefix_append_right_inj u).mpr h

/-- A pattern is tried as just those fronts of a text which it accepts. -/
theorem mem_matchings_iff {r : Pattern} {t w : Text} : w ∈ r.matchings t ↔ r.Accepts w ∧ w <+: t := by
  induction r generalizing t w with
  | char p =>
    cases t with
    | nil => simp +contextual [matchings, Accepts]
    | cons c t =>
      have hmem : w ∈ (char p).matchings (c :: t) ↔ p c = true ∧ w = [c] := by
        rw [matchings]
        split <;> simp_all
      rw [hmem, Accepts]
      constructor
      · rintro ⟨hc, rfl⟩
        exact ⟨⟨c, hc, rfl⟩, t, rfl⟩
      · rintro ⟨⟨d, hd, rfl⟩, hprefix⟩
        obtain ⟨rfl, -⟩ := List.cons_prefix_cons.mp hprefix
        exact ⟨hd, rfl⟩
  | many p => exact mem_frontsOf_iff
  | optional r ih =>
    have hnil : w = [] ∧ w <+: t ↔ w = [] := and_iff_left_of_imp fun h => h ▸ List.nil_prefix
    rw [matchings, Accepts, List.mem_append, List.mem_singleton, ih, or_and_right, hnil]
  | seq r s ihr ihs =>
    simp only [matchings, Accepts, List.mem_flatMap, List.mem_map, ihr, ihs]
    constructor
    · rintro ⟨u, ⟨hu, hut⟩, v, ⟨hv, hvt⟩, rfl⟩
      exact ⟨⟨u, v, hu, hv, rfl⟩, append_prefix_iff.mpr ⟨hut, hvt⟩⟩
    · rintro ⟨⟨u, v, hu, hv, rfl⟩, h⟩
      obtain ⟨hut, hvt⟩ := append_prefix_iff.mp h
      exact ⟨u, ⟨hu, hut⟩, v, ⟨hv, hvt⟩, rfl⟩
  | either r s ihr ihs => rw [matchings, Accepts, List.mem_append, ihr, ihs, or_and_right]

/-! ### Searching -/

variable {r : Pattern}

private theorem findsAfter_eq (n : Nat) (t : Text) : findsAfter r n t = r.finds (t.drop n) := by
  induction n generalizing t with
  | zero => rfl
  | succ n ih =>
    cases t with
    | nil => rfl
    | cons c t => exact ih t

theorem finds_nil : r.finds [] = [] := rfl

theorem finds_cons {c : Char} {t : Text} (h : r.first? (c :: t) = none) : r.finds (c :: t) = r.finds t := by
  rw [finds, findsAfter, h]
  rfl

theorem finds_append {word t : Text} (hne : word ≠ []) (h : r.first? (word ++ t) = some word) :
    r.finds (word ++ t) = word :: r.finds t := by
  obtain ⟨c, word, rfl⟩ := List.exists_cons_of_ne_nil hne
  rw [List.cons_append] at h ⊢
  rw [finds, findsAfter, h]
  exact congrArg ((c :: word) :: ·) ((findsAfter_eq word.length (word ++ t)).trans (by rw [List.drop_left]))

/-! ### The first way to read a pattern -/

theorem first?_either (r s : Pattern) (t : Text) : (either r s).first? t = (r.first? t).or (s.first? t) :=
  List.head?_append

theorem first?_optional_seq (r s : Pattern) (t : Text) :
    (seq (optional r) s).first? t = ((seq r s).first? t).or (s.first? t) := by
  simp [first?, matchings, List.flatMap_append, List.head?_append]

theorem matchings_seq_seq (q r s : Pattern) (t : Text) :
    (seq (seq q r) s).matchings t = (seq q (seq r s)).matchings t := by
  simp [matchings, List.flatMap_assoc, List.flatMap_map, List.map_flatMap, Function.comp_def]

/-! ### Runs in patterns -/

section Runs

variable {p : Char → Bool} {s : Pattern} {c : Char} {run t : Text}

theorem matchings_char_seq_cons (hc : p c = true) :
    (seq (char p) s).matchings (c :: t) = (s.matchings t).map (c :: ·) := by
  simp [matchings, hc]

theorem matchings_char_seq_of_neg (h : ∀ c ∈ t.head?, p c = false) : (seq (char p) s).matchings t = [] := by
  cases t with
  | nil => rfl
  | cons c t => simp [matchings, h c rfl]

theorem matchings_many_seq_of_neg (h : ∀ c ∈ t.head?, p c = false) : (seq (many p) s).matchings t = [] := by
  cases t with
  | nil => rfl
  | cons c t => simp [matchings, frontsOf, h c rfl]

private theorem matchings_many_seq_cons (hc : p c = true) :
    (seq (many p) s).matchings (c :: t) = ((seq (many p) s).matchings t ++ s.matchings t).map (c :: ·) := by
  simp [matchings, frontsOf, hc, List.flatMap_map, List.map_flatMap, Function.comp_def]

/-- A run is taken as a whole if what is to follow cannot begin with a character of the run. -/
theorem matchings_many_seq_append (hs : ∀ c t, p c = true → s.matchings (c :: t) = []) (hne : run ≠ [])
    (hrun : ∀ c ∈ run, p c = true) (hstop : ∀ c ∈ t.head?, p c = false) :
    (seq (many p) s).matchings (run ++ t) = (s.matchings t).map (run ++ ·) := by
  induction run with
  | nil => exact absurd rfl hne
  | cons c run ih =>
    obtain ⟨hc, hrun⟩ := List.forall_mem_cons.mp hrun
    rw [List.cons_append, matchings_many_seq_cons hc]
    cases run with
    | nil =>
      rw [List.nil_append, matchings_many_seq_of_neg hstop, List.nil_append]
      rfl
    | cons d run =>
      rw [ih (List.cons_ne_nil d run) hrun, List.cons_append, hs d _ (hrun d List.mem_cons_self), List.append_nil,
        List.map_map]
      rfl

theorem first?_many_of_neg (h : ∀ c ∈ t.head?, p c = false) : (many p).first? t = none := by
  cases t with
  | nil => rfl
  | cons c t => simp [first?, matchings, frontsOf, h c rfl]

theorem first?_many_append (hne : run ≠ []) (hrun : ∀ c ∈ run, p c = true) (hstop : ∀ c ∈ t.head?, p c = false) :
    (many p).first? (run ++ t) = some run := by
  induction run with
  | nil => exact absurd rfl hne
  | cons c run ih =>
    obtain ⟨hc, hrun⟩ := List.forall_mem_cons.mp hrun
    have hfirst : (many p).first? (c :: (run ++ t)) = (((many p).first? (run ++ t)).map (c :: ·)).or (some [c]) := by
      simp [first?, matchings, frontsOf, hc, List.head?_append]
    rw [List.cons_append, hfirst]
    cases run with
    | nil =>
      rw [List.nil_append, first?_many_of_neg hstop]
      rfl
    | cons d run =>
      rw [ih (List.cons_ne_nil d run) hrun]
      rfl

end Runs

end Pattern

/-! ### The longest front -/

/-- Whether a text is the longest of the fronts of another one that satisfy `P`. -/
structure IsLongestFront (P : Text → Prop) (t front : Text) : Prop where
  holds : P front
  front_prefix : front <+: t
  length_le : ∀ other, P other → other <+: t → other.length ≤ front.length

theorem IsLongestFront.unique {P : Text → Prop} {t front front' : Text} (h : IsLongestFront P t front)
    (h' : IsLongestFront P t front') : front = front' := by
  have hlength : front.length = front'.length :=
    Nat.le_antisymm (h'.length_le _ h.holds h.front_prefix) (h.length_le _ h'.holds h'.front_prefix)
  exact (List.prefix_of_prefix_length_le h.front_prefix h'.front_prefix hlength.le).eq_of_length hlength

end SourceIndex.Text
