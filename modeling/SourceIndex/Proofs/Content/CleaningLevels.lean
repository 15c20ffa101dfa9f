import Mathlib.Data.List.Basic
import SourceIndex.Content.Cleaning
import SourceIndex.Proofs.Text.Runs

/-!
# What is kept at each cleaning level

Passes one after the other are one pass with all their sets (`blank_blank`), so each level is a map of the content
itself (`levels_eq`).  The copies are equally long, hence the copy of a level stands at a known place of the indexed
form (`exists_clean_eq`).  A run of what a level keeps becomes a word there, because the passes leave spaces on both
sides of it, and the ends of the copies do so too (`exists_blank_eq`).
-/

namespace SourceIndex.Cleaning

/-- The characters that are replaced at a level: the sets of the passes up to it. -/
def replacedAt (level : Nat) : List Char := (passes.take (level + 1)).flatten

/-- Whether a level keeps a character as a part of a word. -/
def keepsAt (level : Nat) (c : Char) : Bool := c != ' ' && !(replacedAt level).contains c

/-! ### Levels as maps of the content -/

theorem blank_append (replaced : List Char) (t u : Text) :
    blank replaced (t ++ u) = blank replaced t ++ blank replaced u := List.map_append

theorem blank_eq_self {replaced : List Char} {t : Text} (h : ∀ c ∈ t, c ∉ replaced) : blank replaced t = t := by
  induction t with
  | nil => rfl
  | cons c t ih =>
    obtain ⟨hc, ht⟩ := List.forall_mem_cons.mp h
    have hrest : t.map (fun c => if replaced.contains c then ' ' else c) = t := ih ht
    rw [blank, List.map_cons, hrest, if_neg (by simpa using hc)]

theorem blank_blank (first second : List Char) (t : Text) :
    blank second (blank first t) = blank (first ++ second) t := by
  unfold blank
  rw [List.map_map]
  refine List.map_congr_left fun c _ => ?_
  by_cases hfirst : c ∈ first
  · simp [hfirst]
  · simp [hfirst]

theorem levels_eq (sets : List (List Char)) (t : Text) :
    levels sets t = (List.range sets.length).map fun level => blank (sets.take (level + 1)).flatten t := by
  induction sets generalizing t with
  | nil => rfl
  | cons replaced rest ih =>
    rw [levels, ih, List.length_cons, List.range_succ_eq_map, List.map_cons, List.map_map]
    simp [blank_blank, Function.comp_def]

/-! ### Copies in the indexed form -/

section Copies

variable {ts : List Text} {n : Nat}

theorem length_spaced (h : ∀ t ∈ ts, t.length = n) : (Text.spaced ts).length = ts.length * (n + 1) := by
  induction ts with
  | nil => simp [Text.spaced]
  | cons t ts ih =>
    obtain ⟨ht, hts⟩ := List.forall_mem_cons.mp h
    have hcons : Text.spaced (t :: ts) = ' ' :: (t ++ Text.spaced ts) := rfl
    rw [hcons, List.length_cons, List.length_append, ih hts, ht, List.length_cons, Nat.succ_mul]
    omega

/-- Each of equally long texts stands at a known place, with a space in front of it and one or nothing behind it. -/
theorem exists_spaced_eq (h : ∀ t ∈ ts, t.length = n) {k : Nat} {t : Text} (hk : ts[k]? = some t) :
    ∃ before after, Text.spaced ts = before ++ (' ' :: t ++ after) ∧ before.length = k * (n + 1) ∧
      (after = [] ∨ after.head? = some ' ') := by
  obtain ⟨hlt, rfl⟩ := List.getElem?_eq_some_iff.mp hk
  have hsplit : ts = ts.take k ++ ts[k] :: ts.drop (k + 1) := by
    rw [← List.drop_eq_getElem_cons hlt, List.take_append_drop]
  refine ⟨Text.spaced (ts.take k), Text.spaced (ts.drop (k + 1)), ?_, ?_, ?_⟩
  · calc Text.spaced ts = Text.spaced (ts.take k ++ ts[k] :: ts.drop (k + 1)) := by rw [← hsplit]
      _ = Text.spaced (ts.take k) ++ (' ' :: ts[k] ++ Text.spaced (ts.drop (k + 1))) := List.flatMap_append
  · rw [length_spaced fun t ht => h t (List.mem_of_mem_take ht), List.length_take_of_le hlt.le]
  · cases ts.drop (k + 1) with
    | nil => exact .inl rfl
    | cons u us => exact .inr rfl

end Copies

theorem exists_clean_eq (content : Text) {level : Nat} (h : level < 6) :
    ∃ before after, clean content = before ++ (' ' :: blank (replacedAt level) content ++ after) ∧
      before.length = level * (content.length + 1) ∧ (after = [] ∨ after.head? = some ' ') := by
  refine exists_spaced_eq (fun copy => length_of_mem_levels) ?_
  have hpasses : level < passes.length := h
  rw [levels_eq, List.getElem?_map, List.getElem?_range hpasses]
  rfl

/-! ### Words at a level -/

section Words

variable {level : Nat} {front run rest : Text}

theorem blank_of_not_keepsAt {c : Char} (h : keepsAt level c = false) : blank (replacedAt level) [c] = [' '] := by
  have hcases : c = ' ' ∨ c ∈ replacedAt level := by simpa [keepsAt, or_iff_not_imp_left] using h
  rcases hcases with rfl | hmem
  · simp [blank]
  · simp [blank, hmem]

theorem blank_of_keepsAt (h : ∀ c ∈ run, keepsAt level c = true) : blank (replacedAt level) run = run := by
  refine blank_eq_self fun c hc => ?_
  have hkeeps := h c hc
  simp only [keepsAt, Bool.and_eq_true, Bool.not_eq_true', List.contains_eq_mem, decide_eq_false_iff_not] at hkeeps
  exact hkeeps.2

/-- In front of a run there is a space, be it that of the copy. -/
private theorem exists_blank_front (h : ∀ c ∈ front.getLast?, keepsAt level c = false) :
    ∃ left, ' ' :: blank (replacedAt level) front = left ++ [' '] ∧ left.length = front.length := by
  rcases List.eq_nil_or_concat' front with rfl | ⟨front, c, rfl⟩
  · exact ⟨[], rfl, rfl⟩
  · refine ⟨' ' :: blank (replacedAt level) front, ?_, by simp [blank]⟩
    rw [blank_append, blank_of_not_keepsAt (h c (by simp))]
    rfl

/-- Behind a run there is a space or the end of the copy. -/
private theorem blank_rest_cases (h : ∀ c ∈ rest.head?, keepsAt level c = false) :
    blank (replacedAt level) rest = [] ∨ (blank (replacedAt level) rest).head? = some ' ' := by
  cases rest with
  | nil => exact .inl rfl
  | cons c rest =>
    refine .inr ?_
    rw [← List.singleton_append, blank_append, blank_of_not_keepsAt (h c rfl)]
    rfl

theorem exists_blank_eq (hfront : ∀ c ∈ front.getLast?, keepsAt level c = false)
    (hrun : ∀ c ∈ run, keepsAt level c = true) (hrest : ∀ c ∈ rest.head?, keepsAt level c = false) :
    ∃ left right, ' ' :: blank (replacedAt level) (front ++ (run ++ rest)) = left ++ (' ' :: run ++ right) ∧
      left.length = front.length ∧ (right = [] ∨ right.head? = some ' ') := by
  obtain ⟨left, hleft, hlength⟩ := exists_blank_front hfront
  refine ⟨left, blank (replacedAt level) rest, ?_, hlength, blank_rest_cases hrest⟩
  rw [blank_append, blank_append, blank_of_keepsAt hrun, ← List.cons_append, hleft]
  simp

end Words

/-- The indexed form consists of six copies of the content with a space in front of each.  The copy of a level is the
content with the characters of all passes up to this level replaced, and each longest run of the others, apart from
spaces, is a word at its place in the copy. -/
theorem clean_levels (content : Text) :
    (clean content).length = 6 * (content.length + 1) ∧
      ∀ level < 6,
        ((clean content).drop (level * (content.length + 1))).take (content.length + 1)
            = ' ' :: content.map (fun c => if c ∈ replacedAt level then ' ' else c) ∧
          ∀ place ∈ Text.runPlaces (keepsAt level) content, ∃ before after,
            clean content = before ++ (' ' :: (content.drop place).takeWhile (keepsAt level) ++ after) ∧
              before.length = level * (content.length + 1) + place ∧ (after = [] ∨ after.head? = some ' ') := by
  refine ⟨length_spaced fun copy => length_of_mem_levels, fun level hlevel => ?_⟩
  obtain ⟨before, after, hclean, hbefore, hafter⟩ := exists_clean_eq content hlevel
  constructor
  · have hblank : content.map (fun c => if c ∈ replacedAt level then ' ' else c)
        = blank (replacedAt level) content := by
      simp [blank]
    have hlength : (' ' :: blank (replacedAt level) content).length = content.length + 1 := by simp [blank]
    rw [hclean, ← hbefore, List.drop_left, ← hlength, List.take_left, hblank]
  · intro place hplace
    obtain ⟨hlt, hfront⟩ := Text.of_mem_runPlaces hplace
    obtain ⟨left, right, hcopy, hleft, hright⟩ := exists_blank_eq hfront (fun c => List.mem_takeWhile_imp)
      (Text.head?_dropWhile_eq_false (content.drop place))
    rw [List.takeWhile_append_dropWhile, List.take_append_drop] at hcopy
    rw [List.length_take_of_le hlt.le] at hleft
    refine ⟨before ++ left, right ++ after, ?_, by rw [List.length_append, hbefore, hleft], ?_⟩
    · rw [hclean, hcopy]
      simp
    · rcases hright with rfl | hhead
      · exact hafter
      · exact .inr (by rw [List.head?_append, hhead]; rfl)

end SourceIndex.Cleaning
