import Mathlib.Data.List.Induction
import Mathlib.Data.List.Nodup

/-!
# First places in a list

Erasing duplicates keeps each element of a list at its first place only (`listsOnce_eraseDups`).
-/

namespace SourceIndex

section EraseDups

variable {α : Type} [BEq α] [LawfulBEq α]

/-- One more element at the end of a list only counts if it is new. -/
theorem eraseDups_concat (l : List α) (x : α) :
    (l ++ [x]).eraseDups = if x ∈ l then l.eraseDups else l.eraseDups ++ [x] := by
  rw [List.eraseDups_append]
  by_cases hx : x ∈ l
  · simp [List.removeAll, hx]
  · simp [List.removeAll, hx, List.eraseDups_cons]

theorem nodup_eraseDups (l : List α) : l.eraseDups.Nodup := by
  induction l using List.reverseRecOn with
  | nil => simp
  | append_singleton l x ih =>
    rw [eraseDups_concat]
    by_cases hx : x ∈ l
    · simpa only [if_pos hx] using ih
    · have hnew : x ∉ l.eraseDups := by simpa using hx
      rw [if_neg hx, ← List.concat_eq_append]
      exact List.Nodup.concat hnew ih

theorem eraseDups_sublist (l : List α) : l.eraseDups.Sublist l := by
  induction l using List.reverseRecOn with
  | nil => simp
  | append_singleton l x ih =>
    rw [eraseDups_concat]
    split
    · exact ih.trans (List.sublist_append_left l [x])
    · exact ih.append (List.Sublist.refl [x])

theorem idxOf_eraseDups_lt_iff {l : List α} {x y : α} (hx : x ∈ l) (hy : y ∈ l) :
    l.eraseDups.idxOf x < l.eraseDups.idxOf y ↔ l.idxOf x < l.idxOf y := by
  induction l using List.reverseRecOn with
  | nil => simp at hx
  | append_singleton l a ih =>
    rw [eraseDups_concat]
    by_cases ha : a ∈ l
    · have hold : ∀ {z}, z ∈ l ++ [a] → z ∈ l := by
        intro z hz
        rcases List.mem_append.mp hz with hz | hz
        · exact hz
        · rwa [List.mem_singleton.mp hz]
      rw [if_pos ha, List.idxOf_append_of_mem (hold hx), List.idxOf_append_of_mem (hold hy)]
      exact ih (hold hx) (hold hy)
    · -- the new element comes last in both lists
      have hlast : ∀ {z}, z ∈ l → (l ++ [a]).idxOf z < (l ++ [a]).idxOf a ∧
          (l.eraseDups ++ [a]).idxOf z < (l.eraseDups ++ [a]).idxOf a := by
        intro z hz
        have hz' := List.mem_eraseDups.mpr hz
        have hplace := List.idxOf_lt_length_of_mem hz
        have hplace' := List.idxOf_lt_length_of_mem hz'
        have ha' : a ∉ l.eraseDups := by rwa [List.mem_eraseDups]
        simp only [List.idxOf_append, hz, hz', ha, ha', if_true, if_false, List.idxOf_cons_self]
        omega
      rw [if_neg ha]
      rcases List.mem_append.mp hx with hx | hx <;> rcases List.mem_append.mp hy with hy | hy
      · rw [List.idxOf_append_of_mem (List.mem_eraseDups.mpr hx), List.idxOf_append_of_mem (List.mem_eraseDups.mpr hy),
          List.idxOf_append_of_mem hx, List.idxOf_append_of_mem hy]
        exact ih hx hy
      · rw [List.mem_singleton.mp hy]
        exact iff_of_true (hlast hx).2 (hlast hx).1
      · rw [List.mem_singleton.mp hx]
        exact iff_of_false (Nat.lt_asymm (hlast hy).2) (Nat.lt_asymm (hlast hy).1)
      · rw [List.mem_singleton.mp hx, List.mem_singleton.mp hy]
        exact iff_of_false (Nat.lt_irrefl _) (Nat.lt_irrefl _)

/-- Whether a list holds the elements of another one, each once and in the order of their first places there. -/
structure ListsOnce (kept all : List α) : Prop where
  nodup : kept.Nodup
  mem_iff : ∀ x, x ∈ kept ↔ x ∈ all
  idxOf_lt_iff : ∀ x ∈ all, ∀ y ∈ all, kept.idxOf x < kept.idxOf y ↔ all.idxOf x < all.idxOf y

theorem listsOnce_eraseDups (l : List α) : ListsOnce l.eraseDups l where
  nodup := nodup_eraseDups l
  mem_iff := fun _ => List.mem_eraseDups
  idxOf_lt_iff := fun _ hx _ hy => idxOf_eraseDups_lt_iff hx hy

end EraseDups

end SourceIndex
