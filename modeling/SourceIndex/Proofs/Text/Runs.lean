import Mathlib.Data.List.TakeWhile
import SourceIndex.Text.Basic

/-!
# Longest runs

The places of a text at which a longest run of characters of one kind begins are a matter of two characters each
(`beginsRun`).  Most facts about them are about the text from such a place on (`fromRuns`), and there three equations
say everything (`fromRuns_nil`, `fromRuns_cons`, `fromRuns_append`).  They match the ways in which a text is read run by
run (`run_induction`).
-/

namespace SourceIndex.Text

variable {p : Char → Bool}

/-- Whether a longest run of characters satisfying `p` begins at a place of a text: the character there satisfies `p`,
and no character before it continues the run to the left. -/
def beginsRun (p : Char → Bool) (t : Text) (place : Nat) : Bool :=
  (t.drop place).head?.any p && !(t.take place).getLast?.any p

/-- The places at which the longest runs begin, from left to right. -/
def runPlaces (p : Char → Bool) (t : Text) : List Nat := (List.range t.length).filter (beginsRun p t)

/-- The longest runs of a text, from left to right. -/
def runs (p : Char → Bool) (t : Text) : List Text := (runPlaces p t).map fun place => (t.drop place).takeWhile p

/-- The rests of a text that begin with a longest run. -/
def fromRuns (p : Char → Bool) (t : Text) : List Text := (runPlaces p t).map t.drop

/-! ### Reading run by run -/

theorem head?_dropWhile_eq_false (t : Text) : ∀ c ∈ (t.dropWhile p).head?, p c = false := by
  intro c hc
  have hnot := List.head?_dropWhile_not p t
  rw [hc] at hnot
  exact hnot

/-- A text is a front of characters of one kind and a rest that does not go on with this kind. -/
theorem exists_front_append (p : Char → Bool) (t : Text) :
    ∃ front rest, t = front ++ rest ∧ (∀ c ∈ front, p c = true) ∧ ∀ c ∈ rest.head?, p c = false :=
  ⟨t.takeWhile p, t.dropWhile p, List.takeWhile_append_dropWhile.symm, fun _ => List.mem_takeWhile_imp,
    head?_dropWhile_eq_false t⟩

/-- The three ways in which a text goes on: it is at its end, or with a character outside of runs, or with a run up to
the end of that run. -/
theorem run_induction (p : Char → Bool) {motive : Text → Prop} (nil : motive [])
    (other : ∀ c t, p c = false → motive t → motive (c :: t))
    (run : ∀ run t, run ≠ [] → (∀ c ∈ run, p c = true) → (∀ c ∈ t.head?, p c = false) → motive t → motive (run ++ t))
    (t : Text) : motive t := by
  induction hn : t.length using Nat.strongRecOn generalizing t with
  | ind n ih =>
    subst hn
    cases t with
    | nil => exact nil
    | cons c t =>
      cases hc : p c with
      | false => exact other c t hc (ih t.length (Nat.lt_succ_self _) t rfl)
      | true =>
        have hlength : (t.dropWhile p).length < (c :: t).length :=
          Nat.lt_succ_of_le (List.dropWhile_sublist p).length_le
        rw [← List.takeWhile_append_dropWhile (p := p) (l := t), ← List.cons_append]
        refine run _ _ (List.cons_ne_nil _ _) ?_ (head?_dropWhile_eq_false t) (ih _ hlength _ rfl)
        exact List.forall_mem_cons.mpr ⟨hc, fun d => List.mem_takeWhile_imp⟩

/-! ### The places of runs -/

theorem of_mem_runPlaces {t : Text} {place : Nat} (h : place ∈ runPlaces p t) :
    place < t.length ∧ ∀ c ∈ (t.take place).getLast?, p c = false := by
  obtain ⟨hlt, hbegins⟩ := List.mem_filter.mp h
  rw [beginsRun, Bool.and_eq_true, Bool.not_eq_true'] at hbegins
  refine ⟨List.mem_range.mp hlt, fun c hc => ?_⟩
  have hlast := hbegins.2
  rwa [Option.mem_def.mp hc] at hlast

/-- The rests of `before ++ t` that begin with a longest run, as far as they begin in `t`. -/
private def fromRunsAfter (p : Char → Bool) (before t : Text) : List Text :=
  ((List.range' before.length t.length).filter (beginsRun p (before ++ t))).map (before ++ t).drop

private theorem fromRunsAfter_cons (p : Char → Bool) (before : Text) (c : Char) (t : Text) :
    fromRunsAfter p before (c :: t)
      = (if p c && !before.getLast?.any p then [c :: t] else []) ++ fromRunsAfter p (before ++ [c]) t := by
  have hplaces : List.range' before.length (c :: t).length
      = before.length :: List.range' (before ++ [c]).length t.length := by
    simp [List.range'_succ]
  have htext : before ++ c :: t = (before ++ [c]) ++ t := by simp
  have hfirst : beginsRun p (before ++ c :: t) before.length = (p c && !before.getLast?.any p) := by
    simp [beginsRun]
  unfold fromRunsAfter
  rw [hplaces, List.filter_cons, hfirst, htext]
  split
  · simp
  · simp

/-- A run that is not continued to the left begins at its first character only. -/
private theorem fromRunsAfter_append {before run : Text} (hne : run ≠ []) (hrun : ∀ c ∈ run, p c = true) (t : Text) :
    fromRunsAfter p before (run ++ t)
      = (if !before.getLast?.any p then [run ++ t] else []) ++ fromRunsAfter p (before ++ run) t := by
  induction run generalizing before with
  | nil => exact absurd rfl hne
  | cons c run ih =>
    obtain ⟨hc, hrun⟩ := List.forall_mem_cons.mp hrun
    rw [List.cons_append, fromRunsAfter_cons, hc, Bool.true_and]
    cases run with
    | nil => rfl
    | cons d run =>
      rw [ih (List.cons_ne_nil d run) hrun]
      simp [hc]

private theorem any_head?_eq_false {t : Text} (h : ∀ c ∈ t.head?, p c = false) : t.head?.any p = false := by
  cases t with
  | nil => rfl
  | cons c t => exact h c rfl

/-- What comes before a text does not matter if it continues no run. -/
private theorem fromRunsAfter_eq {before t : Text} (h : before.getLast?.any p = false ∨ t.head?.any p = false) :
    fromRunsAfter p before t = fromRunsAfter p [] t := by
  induction t using run_induction p generalizing before with
  | nil => rfl
  | other c t hc ih =>
    have hlast (front : Text) : (front ++ [c]).getLast?.any p = false := by simp [hc]
    rw [fromRunsAfter_cons, fromRunsAfter_cons, hc, ih (.inl (hlast before)), ih (.inl (hlast []))]
    rfl
  | run run t hne hrun hstop ih =>
    have hbefore : before.getLast?.any p = false := by
      refine h.resolve_right ?_
      obtain ⟨c, run, rfl⟩ := List.exists_cons_of_ne_nil hne
      simp [hrun c List.mem_cons_self]
    have hrest (front : Text) : fromRunsAfter p front t = fromRunsAfter p [] t := ih (.inr (any_head?_eq_false hstop))
    rw [fromRunsAfter_append hne hrun, fromRunsAfter_append hne hrun, hbefore, hrest (before ++ run), hrest ([] ++ run)]
    rfl

private theorem fromRuns_eq (p : Char → Bool) (t : Text) : fromRuns p t = fromRunsAfter p [] t := by
  simp [fromRuns, runPlaces, fromRunsAfter, List.range_eq_range']

theorem fromRuns_nil (p : Char → Bool) : fromRuns p [] = [] := rfl

theorem fromRuns_cons {c : Char} (hc : p c = false) (t : Text) : fromRuns p (c :: t) = fromRuns p t := by
  rw [fromRuns_eq, fromRuns_eq, fromRunsAfter_cons, hc, fromRunsAfter_eq (.inl (by simp [hc]))]
  rfl

theorem fromRuns_append {run t : Text} (hne : run ≠ []) (hrun : ∀ c ∈ run, p c = true)
    (hstop : ∀ c ∈ t.head?, p c = false) : fromRuns p (run ++ t) = (run ++ t) :: fromRuns p t := by
  rw [fromRuns_eq, fromRuns_eq, fromRunsAfter_append hne hrun, fromRunsAfter_eq (.inr (any_head?_eq_false hstop))]
  rfl

/-! ### Runs -/

theorem runs_eq (p : Char → Bool) (t : Text) : runs p t = (fromRuns p t).map (List.takeWhile p) := by
  simp [runs, fromRuns, Function.comp_def]

theorem runs_nil (p : Char → Bool) : runs p [] = [] := rfl

theorem runs_cons {c : Char} (hc : p c = false) (t : Text) : runs p (c :: t) = runs p t := by
  rw [runs_eq, runs_eq, fromRuns_cons hc]

theorem takeWhile_run {run t : Text} (hrun : ∀ c ∈ run, p c = true) (hstop : ∀ c ∈ t.head?, p c = false) :
    (run ++ t).takeWhile p = run := by
  rw [List.takeWhile_append_of_pos hrun]
  cases t with
  | nil => simp
  | cons c t => simp [hstop c rfl]

theorem dropWhile_run {run t : Text} (hrun : ∀ c ∈ run, p c = true) (hstop : ∀ c ∈ t.head?, p c = false) :
    (run ++ t).dropWhile p = t := by
  rw [List.dropWhile_append_of_pos hrun]
  cases t with
  | nil => rfl
  | cons c t => simp [hstop c rfl]

/-- A front of one kind goes no further than the run in front. -/
theorem prefix_takeWhile {front t : Text} (hfront : ∀ c ∈ front, p c = true) (h : front <+: t) :
    front <+: t.takeWhile p := by
  obtain ⟨rest, rfl⟩ := h
  rw [List.takeWhile_append_of_pos hfront]
  exact List.prefix_append front _

theorem runs_append {run t : Text} (hne : run ≠ []) (hrun : ∀ c ∈ run, p c = true)
    (hstop : ∀ c ∈ t.head?, p c = false) : runs p (run ++ t) = run :: runs p t := by
  rw [runs_eq, runs_eq, fromRuns_append hne hrun hstop, List.map_cons, takeWhile_run hrun hstop]

end SourceIndex.Text
