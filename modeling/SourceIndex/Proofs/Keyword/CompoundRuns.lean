import SourceIndex.Proofs.Keyword.CompoundPieces
import SourceIndex.Proofs.Keyword.CutWords
import SourceIndex.Proofs.Text.Runs

/-!
# The compounds of a content

The words between spaces that a content is cleaned to are its longest runs of ASCII letters and digits, apart from empty
words (`filter_runs`).  Of these, the compounds are told by three conditions on their characters (`isCompound_iff`), and
the pieces of a word by four conditions on the pieces, which leave no choice (`decomposes_iff`).  So what a content
yields can be said without cleaning, splitting and cutting (`expand_runs`).
-/

namespace SourceIndex.CamelCase

/-! ### Compounds -/

/-- Whether a word has at least seven characters, no two capitals next to each other and a capital past its first
character. -/
def IsIdentifier (word : Text) : Prop :=
  7 ≤ word.length ∧ (word.IsChain fun a b => ¬ (a.isUpper = true ∧ b.isUpper = true)) ∧
    ∃ c ∈ word.tail, c.isUpper = true

theorem hasAcronym_eq_false_iff {word : Text} :
    hasAcronym word = false ↔ word.IsChain fun a b => ¬ (a.isUpper = true ∧ b.isUpper = true) := by
  induction word with
  | nil => simp [hasAcronym]
  | cons a word ih =>
    cases word with
    | nil => simp [hasAcronym]
    | cons b word =>
      rw [hasAcronym, Bool.or_eq_false_iff, ih, List.isChain_cons_cons, Bool.and_eq_false_iff, not_and_or,
        Bool.not_eq_true, Bool.not_eq_true]

theorem isCompound_iff {word : Text} : isCompound word = true ↔ IsIdentifier word := by
  rw [isCompound, Bool.and_eq_true, Bool.and_eq_true, Bool.not_eq_true', decide_eq_true_iff, decide_eq_true_iff,
    hasAcronym_eq_false_iff, one_lt_length_pieces_iff, and_assoc]
  rfl

instance : DecidablePred IsIdentifier := fun _ => decidable_of_iff _ isCompound_iff

/-! ### Pieces -/

/-- The ways to cut a word into pieces so that a new piece begins with each capital past the first character of the
word, and nowhere else. -/
structure Decomposes (word : Text) (ps : List Text) : Prop where
  flatten_eq : ps.flatten = word
  ne_nil : ∀ piece ∈ ps, piece ≠ []
  isUpper_head : ∀ piece ∈ ps.tail, ∀ c ∈ piece.head?, c.isUpper = true
  isUpper_tail : ∀ piece ∈ ps, ∀ c ∈ piece.tail, c.isUpper = false

private theorem isChain_joint_iff {ps : List Text} (hne : ∀ piece ∈ ps, piece ≠ []) :
    (ps.IsChain fun a b => ∃ _ : a ≠ [], ∃ hb : b ≠ [], (!(b.head hb).isUpper) = false) ↔
      ∀ piece ∈ ps.tail, ∀ c ∈ piece.head?, c.isUpper = true := by
  refine (List.IsChain.iff_of_mem_imp fun a b ha hb => ?_).trans isChain_iff_forall_mem_tail
  obtain ⟨c, t, rfl⟩ := List.exists_cons_of_ne_nil (hne b hb)
  simp [hne a ha]

/-- There is one such way. -/
theorem decomposes_iff {word : Text} {ps : List Text} : Decomposes word ps ↔ ps = pieces word := by
  rw [eq_comm, pieces, List.splitBy_eq_iff]
  constructor
  · intro h
    refine ⟨h.flatten_eq.symm, fun hnil => h.ne_nil [] hnil rfl, fun piece hpiece => ?_,
      (isChain_joint_iff h.ne_nil).mpr h.isUpper_head⟩
    exact isChain_iff_forall_mem_tail.mpr fun c hc => by simp [h.isUpper_tail piece hpiece c hc]
  · rintro ⟨hflat, hnil, hchain, hjoint⟩
    have hne : ∀ piece ∈ ps, piece ≠ [] := fun piece hpiece hempty => hnil (hempty ▸ hpiece)
    refine ⟨hflat.symm, hne, (isChain_joint_iff hne).mp hjoint, fun piece hpiece c hc => ?_⟩
    simpa using isChain_iff_forall_mem_tail.mp (hchain piece hpiece) c hc

/-! ### Runs of letters and digits -/

private theorem space_not_mem {run : Text} (h : ∀ c ∈ run, c.isAlphanum = true) : ' ' ∉ run := by
  intro hspace
  exact absurd (h ' ' hspace) (by decide)

private theorem splitOn_append {run : Text} (hrun : ∀ c ∈ run, c.isAlphanum = true) {c : Char}
    (hc : c.isAlphanum = false) (t : Text) :
    ((run ++ c :: t).map Text.alphanumericOrSpace).splitOn ' '
      = run :: (t.map Text.alphanumericOrSpace).splitOn ' ' := by
  have hspace : Text.alphanumericOrSpace c = ' ' := if_neg (by simp [hc])
  rw [List.map_append, List.map_cons, map_alphanumericOrSpace hrun, hspace,
    List.splitOn_append_cons_self_of_not_mem (space_not_mem hrun)]

/-- The words of a content are its runs of letters and digits, and empty words. -/
theorem filter_runs (t : Text) :
    (Text.runs Char.isAlphanum t).filter isCompound
      = ((t.map Text.alphanumericOrSpace).splitOn ' ').filter isCompound := by
  have hsplit {c : Char} (hc : c.isAlphanum = false) (t : Text) :
      ((c :: t).map Text.alphanumericOrSpace).splitOn ' ' = [] :: (t.map Text.alphanumericOrSpace).splitOn ' ' :=
    @splitOn_append [] (by simp) c hc t
  have hempty : ¬ isCompound [] = true := by decide
  induction t using Text.run_induction Char.isAlphanum with
  | nil =>
    rw [Text.runs_nil, List.map_nil, List.splitOn_nil, List.filter_cons_of_neg hempty]
  | other c t hc ih => rw [Text.runs_cons hc, ih, hsplit hc, List.filter_cons_of_neg hempty]
  | run run t hne hrun hstop ih =>
    rw [Text.runs_append hne hrun hstop, List.filter_cons, ih, ← List.filter_cons]
    cases t with
    | nil =>
      rw [List.append_nil, map_alphanumericOrSpace hrun, List.splitOn_eq_singleton (space_not_mem hrun)]
      rfl
    | cons c t =>
      -- the separator after the run begins an empty word, or ends the one of the run
      have hc : c.isAlphanum = false := hstop c rfl
      rw [splitOn_append hrun hc, hsplit hc, List.filter_cons, List.filter_cons_of_neg hempty, ← List.filter_cons]

/-- A content within the limit yields, for each of its longest runs of ASCII letters and digits that has at least seven
characters, no two capitals next to each other and a capital past its first character, a space and the pieces of the run
with single spaces between them; other runs yield nothing.  The pieces of a run are the only way to cut it into parts
that are not empty, of which all but the first begin with a capital and none has a capital past its first character. -/
theorem expand_runs {limit : Nat} {content : Text} (h : content.length ≤ limit) :
    expand limit content = ((Text.runs Char.isAlphanum content).filter fun run => IsIdentifier run).flatMap
        (fun run => ' ' :: [' '].intercalate (pieces run)) ∧
      ∀ run ps, Decomposes run ps ↔ ps = pieces run := by
  refine ⟨?_, fun run ps => decomposes_iff⟩
  have hfilter : (Text.runs Char.isAlphanum content).filter (fun run => IsIdentifier run)
      = ((content.map Text.alphanumericOrSpace).splitOn ' ').filter isCompound := by
    rw [← filter_runs]
    refine List.filter_congr fun run _ => ?_
    rw [Bool.eq_iff_iff, decide_eq_true_iff, isCompound_iff]
  have hspaced : ∀ run ∈ (Text.runs Char.isAlphanum content).filter (fun run => IsIdentifier run),
      Text.spaced (pieces run) = ' ' :: [' '].intercalate (pieces run) := by
    intro run hrun
    have hpieces := one_lt_length_pieces_iff.mpr (of_decide_eq_true (List.mem_filter.mp hrun).2).2.2
    obtain ⟨first, rest, hcons⟩ := List.exists_cons_of_length_pos (Nat.lt_of_succ_lt hpieces)
    rw [hcons, Text.spaced_cons, Text.intercalate_cons_eq]
  rw [expand_of_length_le h, expandWords, ← hfilter, Text.spaced, List.flatMap_assoc]
  exact List.flatMap_congr hspaced

/-- A name with a digit in front is cut; an acronym, a name of six characters and one without a capital inside are
left out. -/
theorem expand_mixed_runs :
    let content := "net.7abcDefg(openTheFile), HTTPServer; getKey Shorter".toList
    content.length ≤ 60 ∧ expand 60 content = " 7abc Defg open The File".toList ∧
      (Text.runs Char.isAlphanum content).filter (fun run => IsIdentifier run)
        = ["7abcDefg".toList, "openTheFile".toList] ∧
      Decomposes "7abcDefg".toList ["7abc".toList, "Defg".toList] := by
  intro content
  have hlength : content.length ≤ 60 := by decide
  obtain ⟨hexpand, hpieces⟩ := expand_runs hlength
  have hruns : (Text.runs Char.isAlphanum content).filter (fun run => IsIdentifier run)
      = ["7abcDefg".toList, "openTheFile".toList] := by decide +kernel
  rw [hruns] at hexpand
  exact ⟨hlength, hexpand.trans (by decide +kernel), hruns, (hpieces _ _).mpr (by decide +kernel)⟩

end SourceIndex.CamelCase
