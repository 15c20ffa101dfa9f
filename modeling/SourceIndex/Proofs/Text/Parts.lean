import Mathlib.Data.List.Destutter
import Mathlib.Data.List.DropRight
import Mathlib.Data.List.SplitBy
import SourceIndex.Text.Basic

/-!
# Parts of a text

Trimming leaves a part of the text in the middle (`exists_trimBy_append`), splitting leaves words without separators
(`mem_of_mem_splitOn`), and squeezing keeps the ends of a text and a text without spaces (`head?_squeezeSpaces`,
`getLast?_squeezeSpaces`, `squeezeSpaces_eq_self`).
-/

namespace SourceIndex.Text

/-- The letters of a written text can be looked at without decoding it. -/
theorem notMem_toList {s : String} {t : Text} {c : Char} (h : s = String.ofList t) (hc : c ∉ t) : c ∉ s.toList := by
  rwa [h, String.toList_ofList]

/-! ### Trimming -/

theorem exists_trimBy_append (p : Char → Bool) (t : Text) :
    ∃ left right, t = left ++ (trimBy p t ++ right) ∧ (∀ c ∈ left, p c = true) ∧ ∀ c ∈ right, p c = true := by
  have htrim : trimBy p t = (t.dropWhile p).rdropWhile p := rfl
  refine ⟨t.takeWhile p, (t.dropWhile p).rtakeWhile p, ?_, fun c => List.mem_takeWhile_imp,
    fun c => List.mem_rtakeWhile_imp⟩
  rw [htrim, List.rdropWhile_append_rtakeWhile, List.takeWhile_append_dropWhile]

theorem mem_of_mem_trimBy {p : Char → Bool} {t : Text} {c : Char} (h : c ∈ trimBy p t) : c ∈ t := by
  obtain ⟨left, right, ht, -⟩ := exists_trimBy_append p t
  rw [ht]
  exact List.mem_append_right left (List.mem_append_left right h)

/-! ### Splitting -/

/-- The words between separators hold the other characters of the text. -/
theorem mem_of_mem_splitOn {t word : Text} {separator c : Char} (h : word ∈ t.splitOn separator) (hc : c ∈ word) :
    c ∈ t ∧ c ≠ separator := by
  induction t generalizing word with
  | nil =>
    rw [List.splitOn_nil, List.mem_singleton] at h
    simp [h] at hc
  | cons a t ih =>
    rw [List.splitOn_cons_eq_if_modifyHead] at h
    split at h
    · rcases List.mem_cons.mp h with rfl | h
      · simp at hc
      · exact (ih h hc).imp_left (List.mem_cons_of_mem a)
    · next ha =>
      -- the first word goes on to the left
      obtain ⟨first, rest, hsplit⟩ := List.exists_cons_of_ne_nil (List.splitOn_ne_nil separator t)
      rw [hsplit, List.modifyHead_cons] at h
      rw [hsplit] at ih
      rcases List.mem_cons.mp h with rfl | h
      · rcases List.mem_cons.mp hc with rfl | hc
        · exact ⟨List.mem_cons_self, by simpa using ha⟩
        · exact (ih List.mem_cons_self hc).imp_left (List.mem_cons_of_mem a)
      · exact (ih (List.mem_cons_of_mem first h) hc).imp_left (List.mem_cons_of_mem a)

/-! ### Spaces -/

theorem squeezeSpaces_cons (c : Char) (t : Text) :
    squeezeSpaces (c :: t) = if c == ' ' && (squeezeSpaces t).head? == some ' '
      then squeezeSpaces t else c :: squeezeSpaces t := rfl

theorem head?_squeezeSpaces (t : Text) : (squeezeSpaces t).head? = t.head? := by
  cases t with
  | nil => rfl
  | cons c t =>
    rw [squeezeSpaces_cons]
    split
    · next h =>
      rw [Bool.and_eq_true, beq_iff_eq, beq_iff_eq] at h
      rw [h.1, h.2, List.head?_cons]
    · rw [List.head?_cons, List.head?_cons]

theorem getLast?_squeezeSpaces (t : Text) : (squeezeSpaces t).getLast? = t.getLast? := by
  induction t with
  | nil => rfl
  | cons c t ih =>
    cases t with
    | nil => simp [squeezeSpaces]
    | cons d t =>
      have hlast : (c :: d :: t).getLast? = (d :: t).getLast? := List.getLast?_cons_cons
      have hne : squeezeSpaces (d :: t) ≠ [] := by
        intro hnil
        have hhead := head?_squeezeSpaces (d :: t)
        simp [hnil] at hhead
      rw [squeezeSpaces_cons]
      split
      · rw [ih, hlast]
      · obtain ⟨e, rest, hrest⟩ := List.exists_cons_of_ne_nil hne
        rw [hlast, ← ih, hrest, List.getLast?_cons_cons]

theorem squeezeSpaces_eq_self {t : Text} (h : ' ' ∉ t) : squeezeSpaces t = t := by
  induction t with
  | nil => rfl
  | cons c t ih =>
    rw [List.mem_cons, not_or] at h
    rw [squeezeSpaces_cons, ih h.2, if_neg]
    simp [Ne.symm h.1]

/-- Squeezing runs of spaces leaves out each space that comes right after another one. -/
theorem squeezeSpaces_eq_destutter (t : Text) : squeezeSpaces t = t.destutter fun a b => ¬ (a = ' ' ∧ b = ' ') := by
  cases t with
  | nil => rfl
  | cons a t =>
    rw [List.destutter_cons']
    induction t generalizing a with
    | nil => simp [squeezeSpaces]
    | cons b t ih =>
      rw [squeezeSpaces_cons, head?_squeezeSpaces, List.head?_cons, List.destutter'_cons, ← ih b, ← ih a]
      by_cases hspaces : a = ' ' ∧ b = ' '
      · obtain ⟨rfl, rfl⟩ := hspaces
        simp
      · rw [if_neg (by simpa using hspaces), if_pos hspaces]

theorem spaced_cons (word : Text) (words : List Text) :
    spaced (word :: words) = ' ' :: (word ++ spaced words) := rfl

/-- Separators between texts are separators before all but the first. -/
theorem intercalate_cons (separator first : Text) (rest : List Text) :
    separator.intercalate (first :: rest) = first ++ rest.flatMap (separator ++ ·) := by
  induction rest generalizing first with
  | nil => simp
  | cons next rest ih => rw [List.intercalate_cons_cons, ih, List.flatMap_cons, List.append_assoc, List.append_assoc]

theorem intercalate_cons_eq (first : Text) (rest : List Text) :
    [' '].intercalate (first :: rest) = first ++ spaced rest := intercalate_cons [' '] first rest

/-- The texts that are set apart by spaces end with the last of them. -/
theorem mem_of_getLast?_spaced {ts : List Text} (h : ∀ t ∈ ts, t ≠ []) {c : Char}
    (hc : (spaced ts).getLast? = some c) : ∃ t ∈ ts, c ∈ t := by
  rcases List.eq_nil_or_concat' ts with rfl | ⟨ts, last, rfl⟩
  · simp [spaced] at hc
  · obtain ⟨d, rest, hlast⟩ := List.exists_cons_of_ne_nil (h last (by simp))
    refine ⟨last, by simp, List.mem_of_getLast? ?_⟩
    simpa [spaced, hlast] using hc

end SourceIndex.Text
