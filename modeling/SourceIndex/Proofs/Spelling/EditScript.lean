import Mathlib.Order.Bounds.Basic
import SourceIndex.Spelling.EditDistance

/-!
# Edit scripts

A script turns one text into another by edits of single characters, anywhere in the text and in any order.  A script
can be read off two texts laid side by side, character against character, and no script does better than the best
such alignment (`aligned_iff`): an edit before an alignment is absorbed by it at the cost of one place
(`Edit.aligned`).  Alignments are built from the front, which is what the search follows, and so the search finds the
least length of a script (`within?_eq_some_iff`).
-/

namespace SourceIndex.EditDistance

/-- One edit of a single character. -/
inductive Edit : Text → Text → Prop
  | insert (front back : Text) (c : Char) : Edit (front ++ back) (front ++ c :: back)
  | delete (front back : Text) (c : Char) : Edit (front ++ c :: back) (front ++ back)
  | substitute (front back : Text) (c d : Char) : Edit (front ++ c :: back) (front ++ d :: back)

/-- A number of edits, one after the other. -/
inductive Script : Nat → Text → Text → Prop
  | done (a : Text) : Script 0 a a
  | step {n : Nat} {a b c : Text} (first : Edit a b) (rest : Script n b c) : Script (n + 1) a c

/-- The least number of edits that turn one text into another. -/
def IsDistance (a b : Text) (n : Nat) : Prop := IsLeast {m | Script m a b} n

/-- Two texts laid side by side so that they differ in at most so many places. -/
inductive Aligned : Nat → Text → Text → Prop
  | nil (n : Nat) : Aligned n [] []
  | keep {n : Nat} {a b : Text} (c : Char) (h : Aligned n a b) : Aligned n (c :: a) (c :: b)
  | insert {n : Nat} {a b : Text} (c : Char) (h : Aligned n a b) : Aligned (n + 1) a (c :: b)
  | delete {n : Nat} {a b : Text} (c : Char) (h : Aligned n a b) : Aligned (n + 1) (c :: a) b
  | substitute {n : Nat} {a b : Text} (c d : Char) (h : Aligned n a b) : Aligned (n + 1) (c :: a) (d :: b)

/-! ### Alignments -/

namespace Aligned

theorem refl (a : Text) : Aligned 0 a a := by
  induction a with
  | nil => exact .nil 0
  | cons c a ih => exact .keep c ih

theorem succ {n : Nat} {a b : Text} (h : Aligned n a b) : Aligned (n + 1) a b := by
  induction h with
  | nil n => exact .nil (n + 1)
  | keep c _ ih => exact .keep c ih
  | insert c _ ih => exact .insert c ih
  | delete c _ ih => exact .delete c ih
  | substitute c d _ ih => exact .substitute c d ih

theorem mono {n m : Nat} {a b : Text} (h : Aligned n a b) (hle : n ≤ m) : Aligned m a b := by
  induction hle with
  | refl => exact h
  | step _ ih => exact ih.succ

theorem symm {n : Nat} {a b : Text} (h : Aligned n a b) : Aligned n b a := by
  induction h with
  | nil n => exact .nil n
  | keep c _ ih => exact .keep c ih
  | insert c _ ih => exact .delete c ih
  | delete c _ ih => exact .insert c ih
  | substitute c d _ ih => exact .substitute d c ih

/-- What is aligned with `y :: b` is aligned with `a` at the cost of one place, if `a` can stand for `y :: b`
wherever the alignment uses up the `y`. -/
private theorem of_cons {a b : Text} {y : Char} (hkeep : ∀ n c, Aligned n b c → Aligned (n + 1) a (y :: c))
    (hdelete : ∀ n c, Aligned n b c → Aligned (n + 2) a c)
    (hsubstitute : ∀ n c z, Aligned n b c → Aligned (n + 2) a (z :: c)) {n : Nat} {c : Text}
    (h : Aligned n (y :: b) c) : Aligned (n + 1) a c := by
  -- insertions before the place of `y` are made in both alignments
  induction c generalizing n with
  | nil =>
    cases h with
    | delete _ h => exact hdelete _ _ h
  | cons z c ih =>
    cases h with
    | keep _ h => exact hkeep _ _ h
    | insert _ h => exact .insert z (ih h)
    | delete _ h => exact hdelete _ _ h
    | substitute _ _ h => exact hsubstitute _ _ _ h

theorem of_cons_left {n : Nat} {a b : Text} {x : Char} (h : Aligned n (x :: a) b) : Aligned (n + 1) a b :=
  of_cons (fun _ _ h => .insert x h) (fun _ _ h => h.succ.succ) (fun _ _ z h => .insert z h.succ) h

theorem of_cons_right {n : Nat} {a b : Text} {x : Char} (h : Aligned n a (x :: b)) : Aligned (n + 1) a b :=
  h.symm.of_cons_left.symm

private theorem substitute_head {n : Nat} {a b : Text} (x : Char) {y : Char} (h : Aligned n (y :: a) b) :
    Aligned (n + 1) (x :: a) b :=
  of_cons (fun _ _ h => .substitute x y h) (fun _ _ h => .delete x h.succ) (fun _ _ z h => .substitute x z h.succ) h

private theorem cons_closed {a b : Text} (hab : ∀ n c, Aligned n b c → Aligned (n + 1) a c) (x : Char) (n : Nat)
    (c : Text) (h : Aligned n (x :: b) c) : Aligned (n + 1) (x :: a) c :=
  of_cons (fun n c h => .keep x (hab n c h)) (fun n c h => .delete x (hab n c h))
    (fun n c z h => .substitute x z (hab n c h)) h

end Aligned

/-- An edit before an alignment costs at most one more place. -/
theorem Edit.aligned {a b : Text} (h : Edit a b) (n : Nat) (c : Text) (hbc : Aligned n b c) : Aligned (n + 1) a c := by
  cases h with
  | insert front back x =>
    induction front generalizing n c with
    | nil => exact hbc.of_cons_left
    | cons y front ih => exact Aligned.cons_closed ih y n c hbc
  | delete front back x =>
    induction front generalizing n c with
    | nil => exact .delete x hbc
    | cons y front ih => exact Aligned.cons_closed ih y n c hbc
  | substitute front back x z =>
    induction front generalizing n c with
    | nil => exact hbc.substitute_head x
    | cons y front ih => exact Aligned.cons_closed ih y n c hbc

theorem Edit.cons {a b : Text} (h : Edit a b) (x : Char) : Edit (x :: a) (x :: b) := by
  cases h with
  | insert front back c => exact .insert (x :: front) back c
  | delete front back c => exact .delete (x :: front) back c
  | substitute front back c d => exact .substitute (x :: front) back c d

theorem Script.cons {n : Nat} {a b : Text} (h : Script n a b) (x : Char) : Script n (x :: a) (x :: b) := by
  induction h with
  | done a => exact .done (x :: a)
  | step first _ ih => exact .step (first.cons x) ih

/-- Two texts differ in at most `n` places of an alignment if and only if at most `n` edits turn one into the other. -/
theorem aligned_iff {n : Nat} {a b : Text} : Aligned n a b ↔ ∃ m ≤ n, Script m a b := by
  constructor
  · intro h
    induction h with
    | nil n => exact ⟨0, Nat.zero_le n, .done []⟩
    | keep c _ ih =>
      obtain ⟨m, hle, hscript⟩ := ih
      exact ⟨m, hle, hscript.cons c⟩
    | @insert n a b c _ ih =>
      obtain ⟨m, hle, hscript⟩ := ih
      exact ⟨m + 1, by omega, .step (.insert [] a c) (hscript.cons c)⟩
    | @delete n a b c _ ih =>
      obtain ⟨m, hle, hscript⟩ := ih
      exact ⟨m + 1, by omega, .step (.delete [] a c) hscript⟩
    | @substitute n a b c d _ ih =>
      obtain ⟨m, hle, hscript⟩ := ih
      exact ⟨m + 1, by omega, .step (.substitute [] a c d) (hscript.cons d)⟩
  · rintro ⟨m, hle, hscript⟩
    refine Aligned.mono ?_ hle
    -- from the last edit backwards, each edit is absorbed by the alignment of what it leads to
    clear hle
    induction hscript with
    | done a => exact .refl a
    | step first _ ih => exact first.aligned _ _ ih

/-! ### Alignments by their first characters -/

theorem aligned_nil_left {n : Nat} {b : Text} : Aligned n [] b ↔ b.length ≤ n := by
  induction b generalizing n with
  | nil => exact iff_of_true (.nil n) (Nat.zero_le n)
  | cons c b ih =>
    constructor
    · intro h
      cases h with
      | insert _ h => exact Nat.succ_le_succ (ih.mp h)
    · intro h
      obtain ⟨m, rfl⟩ := Nat.exists_eq_add_one_of_ne_zero (show n ≠ 0 by rintro rfl; simp at h)
      exact .insert c (ih.mpr (Nat.le_of_succ_le_succ h))

theorem aligned_nil_right {n : Nat} {a : Text} : Aligned n a [] ↔ a.length ≤ n := by
  rw [← aligned_nil_left]
  exact ⟨Aligned.symm, Aligned.symm⟩

/-- Equal characters at the front need no edit. -/
theorem aligned_cons_self {n : Nat} {a b : Text} {x : Char} : Aligned n (x :: a) (x :: b) ↔ Aligned n a b := by
  constructor
  · intro h
    cases h with
    | keep _ h => exact h
    | insert _ h => exact h.of_cons_left
    | delete _ h => exact h.of_cons_right
    | substitute _ _ h => exact h.succ
  · exact .keep x

theorem aligned_zero_cons_cons {a b : Text} {x y : Char} (hne : x ≠ y) : ¬ Aligned 0 (x :: a) (y :: b) := by
  intro h
  cases h with
  | keep => exact hne rfl

theorem aligned_succ_cons_cons {n : Nat} {a b : Text} {x y : Char} (hne : x ≠ y) :
    Aligned (n + 1) (x :: a) (y :: b) ↔ Aligned n a b ∨ Aligned n a (y :: b) ∨ Aligned n (x :: a) b := by
  constructor
  · intro h
    cases h with
    | keep => exact absurd rfl hne
    | insert _ h => exact .inr (.inr h)
    | delete _ h => exact .inr (.inl h)
    | substitute _ _ h => exact .inl h
  · rintro (h | h | h)
    · exact .substitute x y h
    · exact .delete x h
    · exact .insert y h

/-! ### The search -/

/-- A number that is found is below the bound, and a number below the bound is found exactly if two texts can be
aligned in so many places. -/
structure Finds (bound : Nat) (found : Option Nat) (a b : Text) : Prop where
  lt_bound : ∀ n, found = some n → n < bound
  le_iff : ∀ n < bound, (∃ m ≤ n, found = some m) ↔ Aligned n a b

theorem least?_eq_some {numbers : List (Option Nat)} {n : Nat} (h : least? numbers = some n) : some n ∈ numbers := by
  have hmem := (List.min?_eq_some_iff.mp h).1
  simpa using hmem

theorem least?_le_iff {numbers : List (Option Nat)} {n : Nat} :
    (∃ m ≤ n, least? numbers = some m) ↔ ∃ m ≤ n, some m ∈ numbers := by
  constructor
  · rintro ⟨m, hle, hleast⟩
    exact ⟨m, hle, least?_eq_some hleast⟩
  · rintro ⟨m, hle, hmem⟩
    have hmem' : m ∈ numbers.filterMap id := by simpa using hmem
    cases hleast : least? numbers with
    | none =>
      rw [List.min?_eq_none_iff.mp hleast] at hmem'
      simp at hmem'
    | some k => exact ⟨k, Nat.le_trans ((List.min?_eq_some_iff.mp hleast).2 m hmem') hle, rfl⟩

private theorem least?_three_le_iff {x y z : Option Nat} {n : Nat} :
    (∃ m ≤ n, least? [x, y, z] = some m) ↔
      (∃ m ≤ n, x = some m) ∨ (∃ m ≤ n, y = some m) ∨ ∃ m ≤ n, z = some m := by
  rw [least?_le_iff]
  simp only [List.mem_cons, List.not_mem_nil, or_false, and_or_left, exists_or, eq_comm]

private theorem map_succ_le_iff {found : Option Nat} {n : Nat} :
    (∃ m ≤ n + 1, found.map (· + 1) = some m) ↔ ∃ m ≤ n, found = some m := by
  cases found <;> simp

/-- Where one text is empty, the length of the other counts. -/
private theorem finds_length {limit length : Nat} {a b : Text} (h : ∀ n, Aligned n a b ↔ length ≤ n) :
    Finds (limit + 1) (if length ≤ limit then some length else none) a b := by
  constructor
  · intro n hn
    split at hn
    · rw [Option.some.injEq] at hn
      omega
    · simp at hn
  · intro n hn
    rw [h]
    split
    · simp
    · simp
      omega

theorem search_finds {limit : Nat} {fewer : Text → Text → Option Nat} (hfewer : ∀ a b, Finds limit (fewer a b) a b)
    (a b : Text) : Finds (limit + 1) (search limit fewer a b) a b := by
  -- the induction only walks over equal characters; at the first that differ, `fewer` takes over
  induction a generalizing b with
  | nil => exact finds_length fun n => aligned_nil_left
  | cons x a ih =>
    cases b with
    | nil => exact finds_length fun n => aligned_nil_right
    | cons y b =>
      unfold search
      by_cases hxy : x = y
      · subst hxy
        rw [if_pos rfl]
        exact ⟨(ih b).lt_bound, fun n hn => by rw [(ih b).le_iff n hn, aligned_cons_self]⟩
      · rw [if_neg hxy]
        constructor
        · intro n hn
          obtain ⟨m, hleast, rfl⟩ := Option.map_eq_some_iff.mp hn
          have hmem := least?_eq_some hleast
          simp only [List.mem_cons, List.not_mem_nil, or_false] at hmem
          rcases hmem with h | h | h <;> have := (hfewer _ _).lt_bound m h.symm <;> omega
        · intro n hn
          cases n with
          | zero => simpa using aligned_zero_cons_cons hxy
          | succ n =>
            have hn' : n < limit := by omega
            rw [map_succ_le_iff, least?_three_le_iff, aligned_succ_cons_cons hxy, (hfewer a b).le_iff n hn',
              (hfewer a (y :: b)).le_iff n hn', (hfewer (x :: a) b).le_iff n hn']

theorem within?_finds (limit : Nat) (a b : Text) : Finds (limit + 1) (within? limit a b) a b := by
  induction limit generalizing a b with
  | zero =>
    refine search_finds (fun a b => ?_) a b
    constructor
    · simp
    · simp
  | succ limit ih => exact search_finds ih a b

/-- The search finds the least number of edits, wherever they are made, unless it exceeds the limit. -/
theorem within?_eq_some_iff {limit n : Nat} {a b : Text} :
    within? limit a b = some n ↔ n ≤ limit ∧ IsDistance a b n := by
  have hfinds := within?_finds limit a b
  have hleast : ∀ {n : Nat}, within? limit a b = some n → n ≤ limit ∧ IsDistance a b n := by
    intro n hn
    have hlt := hfinds.lt_bound n hn
    have hlower : ∀ m, Script m a b → n ≤ m := by
      intro m hscript
      by_contra hlt'
      obtain ⟨k, hle, hk⟩ := (hfinds.le_iff m (by omega)).mpr (aligned_iff.mpr ⟨m, Nat.le_refl m, hscript⟩)
      rw [hn, Option.some.injEq] at hk
      omega
    obtain ⟨m, hle, hscript⟩ := aligned_iff.mp ((hfinds.le_iff n hlt).mp ⟨n, Nat.le_refl n, hn⟩)
    obtain rfl : n = m := Nat.le_antisymm (hlower m hscript) hle
    exact ⟨by omega, hscript, hlower⟩
  constructor
  · exact hleast
  · rintro ⟨hle, hdistance⟩
    obtain ⟨m, -, hm⟩ := (hfinds.le_iff n (by omega)).mpr (aligned_iff.mpr ⟨n, Nat.le_refl n, hdistance.1⟩)
    rw [hm, (hleast hm).2.unique hdistance]

end SourceIndex.EditDistance
