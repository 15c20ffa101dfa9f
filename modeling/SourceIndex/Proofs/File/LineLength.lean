import Mathlib.Algebra.BigOperators.Group.List.Basic
import Mathlib.Logic.Relation
import SourceIndex.Proofs.File.ExtensionRules
import SourceIndex.Proofs.Numeric.QuotientOrder

/-!
# The average length of lines

The length of a line is what trimming leaves of it without its spaces (`lineLength_eq`), so neither spaces inside nor
blanks at its ends count.  A file is minified if its lines are longer than a limit on average, and this comes out as
for the exact numbers (`Binary64.ofNat_less_div_iff`).  Only the sum of the lengths and the number of the lines matter,
and both stay as they are along all changes of the layout (`Relayout`).
-/

namespace SourceIndex

/-! ### Trimming -/

namespace Text

section Trim

variable {p q : Char → Bool}

private theorem filter_dropWhile (h : ∀ c, q c = false → p c = true) (t : Text) :
    (t.dropWhile p).filter q = (t.filter q).dropWhile p := by
  induction t with
  | nil => rfl
  | cons c t ih =>
    cases hp : p c with
    | true =>
      rw [List.dropWhile_cons_of_pos hp, ih, List.filter_cons]
      split
      · rw [List.dropWhile_cons_of_pos hp]
      · rfl
    | false =>
      have hq : q c = true := by
        by_contra hq
        simp [h c (by simpa using hq)] at hp
      rw [List.dropWhile_cons_of_neg (by simp [hp]), List.filter_cons_of_pos hq,
        List.dropWhile_cons_of_neg (by simp [hp])]

/-- Whether some of the trimmed characters are taken out before or after makes no difference. -/
theorem filter_trimBy (h : ∀ c, q c = false → p c = true) (t : Text) :
    (trimBy p t).filter q = trimBy p (t.filter q) := by
  rw [trimBy, trimBy, List.filter_reverse, filter_dropWhile h, List.filter_reverse, filter_dropWhile h]

/-- Trimmed characters may be added at the ends. -/
theorem trimBy_append {left right : Text} (hleft : ∀ c ∈ left, p c = true) (hright : ∀ c ∈ right, p c = true)
    (t : Text) : trimBy p (left ++ t ++ right) = trimBy p t := by
  rw [trimBy, trimBy, List.append_assoc, List.dropWhile_append_of_pos hleft, List.dropWhile_append]
  by_cases ht : t.dropWhile p = []
  · have hdrop : (right ++ []).dropWhile p = [] := List.dropWhile_append_of_pos hright
    rw [List.append_nil] at hdrop
    rw [ht, hdrop]
    rfl
  · have hreverse : ∀ c ∈ right.reverse, p c = true := fun c hc => hright c (List.mem_reverse.mp hc)
    rw [if_neg (by simpa using ht), List.reverse_append, List.dropWhile_append_of_pos hreverse]

end Trim

end Text

namespace Policy

open Extension (Matches)

/-! ### Lines -/

/-- The length of a line is that of the line without its spaces, trimmed. -/
theorem lineLength_eq (line : Text) : lineLength line = (Text.trimBlanks (line.filter (· != ' '))).length := by
  have hspace : ∀ c, (c != ' ') = false → Text.isBlank c = true := by
    intro c hc
    rw [bne_eq_false_iff_eq.mp hc]
    rfl
  rw [lineLength, List.countP_eq_length_filter, Text.trimBlanks, Text.filter_trimBy hspace, Text.trimBlanks]

theorem lineLength_insert (left right : Text) : lineLength (left ++ ' ' :: right) = lineLength (left ++ right) := by
  rw [lineLength_eq, lineLength_eq]
  simp

theorem lineLength_append {left right : Text} (hleft : ∀ c ∈ left, c ≤ ' ') (hright : ∀ c ∈ right, c ≤ ' ')
    (line : Text) : lineLength (left ++ line ++ right) = lineLength line := by
  have htrim : Text.trimBlanks (left ++ line ++ right) = Text.trimBlanks line :=
    Text.trimBy_append (fun c hc => decide_eq_true (hleft c hc)) (fun c hc => decide_eq_true (hright c hc)) line
  rw [lineLength, lineLength, htrim]

theorem totalLength_eq_sum (lines : List Text) : totalLength lines = (lines.map lineLength).sum := by
  rw [totalLength, List.sum_eq_foldl, List.foldl_map]

/-! ### Layout -/

/-- A change of the layout of a file: its lines are put into another order, or a space is inserted into a line or
deleted from it, or a character up to the space is added at one of its ends. -/
inductive Relayout : List Text → List Text → Prop
  | permute {lines lines' : List Text} (h : lines.Perm lines') : Relayout lines lines'
  | insertSpace (before after : List Text) (left right : Text) :
      Relayout (before ++ (left ++ right) :: after) (before ++ (left ++ ' ' :: right) :: after)
  | deleteSpace (before after : List Text) (left right : Text) :
      Relayout (before ++ (left ++ ' ' :: right) :: after) (before ++ (left ++ right) :: after)
  | addFront (before after : List Text) (line : Text) {c : Char} (hc : c ≤ ' ') :
      Relayout (before ++ line :: after) (before ++ (c :: line) :: after)
  | addBack (before after : List Text) (line : Text) {c : Char} (hc : c ≤ ' ') :
      Relayout (before ++ line :: after) (before ++ (line ++ [c]) :: after)

/-- Files with as many lines and the same lengths together. -/
def SameTotals (lines lines' : List Text) : Prop :=
  lines'.length = lines.length ∧ totalLength lines' = totalLength lines

private theorem sameTotals_line (before after : List Text) {line line' : Text}
    (h : lineLength line' = lineLength line) : SameTotals (before ++ line :: after) (before ++ line' :: after) := by
  constructor
  · simp
  · simp [totalLength_eq_sum, h]

theorem Relayout.sameTotals {lines lines' : List Text} (h : Relayout lines lines') : SameTotals lines lines' := by
  cases h with
  | permute h =>
    refine ⟨h.length_eq.symm, ?_⟩
    rw [totalLength_eq_sum, totalLength_eq_sum, (h.map lineLength).sum_eq]
  | insertSpace before after left right => exact sameTotals_line before after (lineLength_insert left right)
  | deleteSpace before after left right => exact sameTotals_line before after (lineLength_insert left right).symm
  | addFront before after line hc =>
    refine sameTotals_line before after ?_
    simpa using @lineLength_append [_] [] (by simpa using hc) (by simp) line
  | addBack before after line hc =>
    refine sameTotals_line before after ?_
    simpa using @lineLength_append [] [_] (by simp) (by simpa using hc) line

theorem sameTotals_of_relayouts {lines lines' : List Text} (h : Relation.ReflTransGen Relayout lines lines') :
    SameTotals lines lines' := by
  induction h with
  | refl => exact ⟨rfl, rfl⟩
  | tail _ hstep ih => exact ⟨hstep.sameTotals.1.trans ih.1, hstep.sameTotals.2.trans ih.2⟩

theorem isMinifiedAt_of_sameTotals (p : Policy) (limit : Nat) (name : Text) {lines lines' : List Text}
    (h : SameTotals lines lines') : p.isMinifiedAt limit name lines' = p.isMinifiedAt limit name lines := by
  have hempty : lines'.isEmpty = lines.isEmpty := by
    rw [Bool.eq_iff_iff, List.isEmpty_iff_length_eq_zero, List.isEmpty_iff_length_eq_zero, h.1]
  rw [isMinifiedAt, isMinifiedAt, hempty, h.1, h.2]

/-! ### The average -/

/-- A file whose name is not on the whitelist is minified exactly if its lines have more characters together than the
limit times their number.  So the layout of the file does not matter, and what is minified for a limit is so for every
smaller one. -/
theorem isMinifiedAt_exact {settings : Settings} (languages : List Language) {name : Text} {lines : List Text}
    (hlines : lines ≠ []) (hwhite : ¬ Matches settings.whitelist name) :
    let p := ofSettings settings languages
    let total := (lines.map fun line =>
      ((line.dropWhile (· ≤ ' ')).rdropWhile (· ≤ ' ')).countP (· != ' ')).sum
    (total < 2 ^ 53 → ∀ limit, p.isMinifiedAt limit name lines = true ↔ limit * lines.length < total) ∧
      (∀ lines', Relation.ReflTransGen Relayout lines lines' →
        ∀ limit, p.isMinifiedAt limit name lines' = p.isMinifiedAt limit name lines) ∧
      ∀ limit limit', limit ≤ limit' → p.isMinifiedAt limit' name lines = true →
        p.isMinifiedAt limit name lines = true := by
  intro p total
  have hlisted : Extension.hasAny p.whitelist (Text.lowercase name) = false := by
    rw [← Bool.not_eq_true]
    exact mt Extension.hasAny_normalizeAll_iff.mp hwhite
  have haverage : ∀ limit, p.isMinifiedAt limit name lines
      = (Binary64.ofNat limit).less (.ofNat total / .ofNat lines.length) := by
    intro limit
    rw [isMinifiedAt, hlisted, Bool.or_false, if_neg (by simpa using hlines), totalLength_eq_sum]
    rfl
  refine ⟨?_, ?_, ?_⟩
  · intro htotal limit
    rw [haverage]
    exact Binary64.ofNat_less_div_iff (List.length_pos_of_ne_nil hlines) htotal
  · intro lines' hlayout limit
    exact p.isMinifiedAt_of_sameTotals limit name (sameTotals_of_relayouts hlayout)
  · intro limit limit' hle hminified
    rw [haverage] at hminified ⊢
    exact Binary64.less_ofNat_of_le hle hminified

/-- A line of three characters and one of eight have more than five on average, but not more than six.  With a space
less, a tab at an end and the lines the other way round the average is the same, and each line alone has its own. -/
theorem isMinifiedAt_of_two_lines :
    let settings := Settings.default
    let p := ofSettings settings []
    let name := "a.css".toList
    let lines := [" ab c".toList, "defghijk".toList]
    let lines' := ["defghijk\t".toList, " abc".toList]
    lines ≠ [] ∧ ¬ Matches settings.whitelist name ∧
      p.isMinifiedAt 6 name lines = false ∧ p.isMinifiedAt 5 name lines = true ∧ p.isMinifiedAt 4 name lines = true ∧
      p.isMinifiedAt 5 name lines' = true ∧
      p.isMinifiedAt 3 name [" ab c".toList] = false ∧ p.isMinifiedAt 7 name ["defghijk".toList] = true := by
  intro settings p name lines lines'
  have hlines : lines ≠ [] := by decide
  have hwhite : ¬ Matches settings.whitelist name := by decide +kernel
  obtain ⟨hexact, hlayout, hmono⟩ := isMinifiedAt_exact [] hlines hwhite
  have hiff := hexact (by decide)
  have hfive : p.isMinifiedAt 5 name lines = true := (hiff 5).mpr (by decide)
  have hsix : p.isMinifiedAt 6 name lines ≠ true := mt (hiff 6).mp (by decide)
  have hthree : p.isMinifiedAt 3 name [" ab c".toList] ≠ true :=
    mt ((isMinifiedAt_exact [] (List.cons_ne_nil _ _) hwhite).1 (by decide) 3).mp (by decide)
  have hseven : p.isMinifiedAt 7 name ["defghijk".toList] = true :=
    ((isMinifiedAt_exact [] (List.cons_ne_nil _ _) hwhite).1 (by decide) 7).mpr (by decide)
  have hsteps : Relation.ReflTransGen Relayout lines lines' :=
    .tail (.tail (.single (.deleteSpace [] ["defghijk".toList] " ab".toList ['c']))
      (.addBack [" abc".toList] [] "defghijk".toList (by decide))) (.permute (List.Perm.swap _ _ _))
  exact ⟨hlines, hwhite, by simpa using hsix, hfive, hmono 4 5 (by decide) hfive,
    (hlayout lines' hsteps 5).trans hfive, by simpa using hthree, hseven⟩

end Policy

end SourceIndex
