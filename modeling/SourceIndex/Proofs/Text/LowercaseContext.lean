import Mathlib.Data.List.Infix
import Mathlib.Data.List.Induction
import SourceIndex.Proofs.Text.LowercaseLetters

/-!
# Lowercasing a part of a text

What comes before a part of a text matters for one letter of it at most: a sigma with which it begins, apart from
characters that are looked through, and after which no letter with case follows (`beginsFinalSigma`).  It becomes a
final sigma exactly if a letter with case comes before the part (`endsCased`).  The dot is looked through; so a
lowercased text ends with a dot and the lowercase form of what follows its last dots unless it is a sigma that sets
them apart (`dot_lowercase_suffix_iff`).
-/

namespace SourceIndex.Text

namespace Lowercase

/-- Whether the last character that is not looked through is a letter with case. -/
def endsCased (t : Text) : Bool := startsCased t.reverse

/-- Whether the first character that is not looked through is a sigma with no letter with case after it. -/
def beginsFinalSigma (t : Text) : Bool :=
  match t.dropWhile isIgnorable with
  | c :: rest => c == 'Σ' && !startsCased rest
  | [] => false

/-- Whether a letter with case comes before what follows a text. -/
def casedAfter (casedBefore : Bool) (t : Text) : Bool :=
  t.foldl (fun cased c => if isIgnorable c then cased else isCased c) casedBefore

theorem startsCased_cons (c : Char) (t : Text) :
    startsCased (c :: t) = if isIgnorable c then startsCased t else isCased c := by
  unfold startsCased
  by_cases hc : isIgnorable c <;> simp [hc]

theorem casedAfter_eq_endsCased (t : Text) : casedAfter false t = endsCased t := by
  induction t using List.reverseRecOn with
  | nil => rfl
  | append_singleton t c ih =>
    rw [endsCased, List.reverse_append, List.reverse_singleton, List.singleton_append, startsCased_cons, ← endsCased,
      ← ih, casedAfter, casedAfter, List.foldl_append]
    rfl

theorem exists_run_append (casedBefore : Bool) (t u : Text) :
    ∃ front, run casedBefore (t ++ u) = front ++ run (casedAfter casedBefore t) u := by
  induction t generalizing casedBefore with
  | nil => exact ⟨[], rfl⟩
  | cons c t ih =>
    obtain ⟨front, hfront⟩ := ih (if isIgnorable c then casedBefore else isCased c)
    refine ⟨expand casedBefore c (t ++ u) ++ front, ?_⟩
    rw [List.cons_append, run, hfront, List.append_assoc]
    rfl

theorem isIgnorable_dot : isIgnorable '.' = true := by decide +kernel

theorem isIgnorable_sigma : isIgnorable 'Σ' = false := by decide +kernel

theorem run_dot (casedBefore : Bool) (t : Text) : run casedBefore ('.' :: t) = '.' :: run casedBefore t := by
  rw [run, expand_of_lt (by decide), isIgnorable_dot]
  rfl

theorem endsCased_dot (t : Text) : endsCased (t ++ ['.']) = endsCased t := by
  rw [endsCased, List.reverse_append, List.reverse_singleton, List.singleton_append, startsCased_cons,
    if_pos isIgnorable_dot, endsCased]

theorem beginsFinalSigma_dot (t : Text) : beginsFinalSigma ('.' :: t) = beginsFinalSigma t := by
  rw [beginsFinalSigma, List.dropWhile_cons_of_pos isIgnorable_dot, beginsFinalSigma]

/-- What comes before a text matters if it begins with a sigma that could be final. -/
theorem run_true_eq_run_false_iff (t : Text) : run true t = run false t ↔ beginsFinalSigma t = false := by
  induction t with
  | nil => simp [run, beginsFinalSigma]
  | cons c t ih =>
    rw [run, run]
    by_cases hc : isIgnorable c = true
    · have hsigma : c ≠ 'Σ' := by
        rintro rfl
        rw [isIgnorable_sigma] at hc
        exact absurd hc (by decide)
      have hexpand : expand true c t = expand false c t := by
        unfold expand
        rw [if_neg hsigma, if_neg hsigma]
      rw [hexpand, if_pos hc, if_pos hc, List.append_cancel_left_eq, ih, beginsFinalSigma, beginsFinalSigma,
        List.dropWhile_cons_of_pos hc]
    · have hbegins : beginsFinalSigma (c :: t) = (c == 'Σ' && !startsCased t) := by
        rw [beginsFinalSigma, List.dropWhile_cons_of_neg hc]
      rw [if_neg hc, if_neg hc, List.append_cancel_right_eq, hbegins]
      unfold expand
      by_cases hsigma : c = 'Σ'
      · cases hnext : startsCased t <;> simp [hsigma]
      · simp [hsigma]

theorem run_eq_run_false_iff (cased : Bool) (t : Text) :
    run cased t = run false t ↔ ¬ (cased = true ∧ beginsFinalSigma t = true) := by
  cases cased with
  | false => simp
  | true => simp [run_true_eq_run_false_iff]

end Lowercase

open Lowercase

theorem lowercase_dot (t : Text) : lowercase ('.' :: t) = '.' :: lowercase t := run_dot false t

theorem head?_lowercase_eq_dot_iff (t : Text) : (lowercase t).head? = some '.' ↔ t.head? = some '.' := by
  cases t with
  | nil => rfl
  | cons c t =>
    constructor
    · intro h
      have hne : expand false c t ≠ [] := List.ne_nil_of_length_pos (by rw [length_expand]; omega)
      obtain ⟨d, rest, hexpand⟩ := List.exists_cons_of_ne_nil hne
      rw [lowercase, run, hexpand, List.cons_append, List.head?_cons, Option.some.injEq] at h
      have hmem : d ∈ expand false c t := by simp [hexpand]
      rcases mem_expand hmem with ⟨hsame, -⟩ | hletter | hafter
      · rw [← hsame, h]
        rfl
      · exact absurd (h ▸ hletter) (by decide)
      · exact absurd (h ▸ hafter) (by decide)
    · intro h
      rw [List.head?_cons, Option.some.injEq] at h
      rw [h, lowercase_dot]
      rfl

/-- A name with an extension ends in lowercase with a dot and the lowercase extension unless a sigma at the front of the
extension becomes a final one. -/
theorem dot_lowercase_suffix_iff (before extension : Text) :
    '.' :: lowercase extension <:+ lowercase (before ++ '.' :: extension) ↔
      ¬ (endsCased before = true ∧ beginsFinalSigma extension = true) := by
  obtain ⟨front, hfront⟩ := exists_run_append false before ('.' :: extension)
  have hname : lowercase (before ++ '.' :: extension) = front ++ '.' :: run (endsCased before) extension := by
    rw [lowercase, hfront, run_dot, casedAfter_eq_endsCased]
  have hlength : ('.' :: lowercase extension).length = ('.' :: run (endsCased before) extension).length := by
    rw [List.length_cons, List.length_cons, length_lowercase, length_run]
  rw [hname, ← run_eq_run_false_iff, ← lowercase]
  constructor
  · intro hsuffix
    have htails := List.suffix_of_suffix_length_le hsuffix (List.suffix_append front _) hlength.le
    have heq := htails.eq_of_length hlength
    rw [List.cons.injEq] at heq
    exact heq.2.symm
  · intro heq
    rw [heq]
    exact List.suffix_append front _

end SourceIndex.Text
