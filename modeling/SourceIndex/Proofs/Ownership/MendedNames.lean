import SourceIndex.Ownership.ProjectStats
import SourceIndex.Proofs.Text.Parts
import SourceIndex.Proofs.Text.Replacement

/-!
# Names in a description

The list of the languages leaves a comma before its last `and`, and the description is mended as a whole to take this
comma away.  What is mended never lies in two sentences at once, so each sentence is mended on its own (`describe_eq`).
In a sentence it does not lie in two names at once either, so the sentence keeps its names exactly if each of them,
with what stands in front of it, has nothing to be mended (`mend_append_eq_iff`).  A name that stands after a comma has
something to be mended also if it begins with the word (`mend_comma_eq_iff`).
-/

namespace SourceIndex.ProjectStats

/-- What is mended: a comma that is followed by two spaces and the word and. -/
def looseComma : Text := ",  and".toList

/-- A text without its loose commas. -/
def mend (t : Text) : Text := Text.replaceAll looseComma " and".toList t

/-- The sentence about the languages as it is to be read, with the first three names. -/
def namedLanguages : List Text → Text
  | [] => "The most important languages in this repository are ".toList
  | [a] => "The most important language in this repository is ".toList ++ a ++ ". ".toList
  | [a, b] =>
    "The most important languages in this repository are ".toList ++ a ++ " and ".toList ++ b ++ ". ".toList
  | a :: b :: c :: _ =>
    "The most important languages in this repository are ".toList ++ a ++ ", ".toList ++ b ++ " and ".toList ++ c
      ++ ". ".toList

/-! ### Mending -/

section Mend

variable {t rest : Text}

theorem mend_append (h : ¬ Text.Continues looseComma rest) (t : Text) : mend (t ++ rest) = mend t ++ mend rest :=
  Text.replaceAll_append_of_not_continues (by decide) h t

theorem mend_append_of_comma_notMem (h : ',' ∉ t) (rest : Text) : mend (t ++ rest) = t ++ mend rest :=
  Text.replaceAll_append_of_notMem h rest

theorem mend_of_comma_notMem (h : ',' ∉ t) : mend t = t := by
  have happend := mend_append_of_comma_notMem h []
  rwa [List.append_nil, show mend [] = [] from rfl, List.append_nil] at happend

theorem mend_eq_self_iff : mend t = t ↔ ¬ looseComma <:+: t := Text.replaceAll_eq_self_iff (by decide)

theorem length_mend_le (t : Text) : (mend t).length ≤ t.length := Text.length_replaceAll_le (by decide) t

/-- The comma that the list of the languages leaves is loose. -/
theorem mend_comma_and (t : Text) : mend (", ".toList ++ (" and ".toList ++ t)) = " and ".toList ++ mend t := by
  have hspace : mend (" ".toList ++ t) = " ".toList ++ mend t := mend_append_of_comma_notMem (by decide) t
  have hloose : mend (looseComma ++ (" ".toList ++ t)) = " and".toList ++ mend (" ".toList ++ t) :=
    Text.replaceAll_append (by decide) _ _
  rw [hspace] at hloose
  exact hloose

theorem not_continues_of_head? {c : Char} (h : rest.head? = some c) (hc : c ∉ "  and".toList) :
    ¬ Text.Continues looseComma rest := by
  obtain ⟨t, rfl⟩ := List.head?_eq_some_iff.mp h
  rintro ⟨back, hback, hne, hprefix⟩
  obtain ⟨d, back, rfl⟩ := List.exists_cons_of_ne_nil hne
  obtain ⟨rfl, -⟩ := List.cons_prefix_cons.mp hprefix
  exact hc (((List.mem_tails _ _).mp hback).subset List.mem_cons_self)

theorem not_continues_comma (t : Text) : ¬ Text.Continues looseComma (", ".toList ++ t) :=
  not_continues_of_head? rfl (by decide)

theorem not_continues_stop : ¬ Text.Continues looseComma ". ".toList := by decide

/-- Mending only shortens, so parts that are mended one by one stay as they are together only if each of them does. -/
theorem append_eq_append_iff_of_length_le {t t' u u' : Text} (ht : t'.length ≤ t.length) (hu : u'.length ≤ u.length) :
    t' ++ u' = t ++ u ↔ t' = t ∧ u' = u := by
  constructor
  · intro h
    have hlength := congrArg List.length h
    rw [List.length_append, List.length_append] at hlength
    exact List.append_inj h (by omega)
  · rintro ⟨rfl, rfl⟩
    rfl

theorem mend_append_eq_iff (h : ¬ Text.Continues looseComma rest) :
    mend (t ++ rest) = t ++ rest ↔ mend t = t ∧ mend rest = rest := by
  rw [mend_append h, append_eq_append_iff_of_length_le (length_mend_le t) (length_mend_le rest)]

theorem mend_append_eq_iff_of_comma_notMem (h : ',' ∉ t) : mend (t ++ rest) = t ++ rest ↔ mend rest = rest := by
  rw [mend_append_of_comma_notMem h, List.append_cancel_left_eq]

/-! ### Names in a list -/

theorem mend_comma_eq_iff {name : Text} :
    mend (", ".toList ++ name) = ", ".toList ++ name ↔ ¬ looseComma <:+: name ∧ ¬ " and".toList <+: name := by
  have hinfix : looseComma <:+: ',' :: ' ' :: name ↔ " and".toList <+: name ∨ looseComma <:+: name := by
    have hloose : looseComma = ',' :: ' ' :: " and".toList := rfl
    rw [List.infix_cons_iff, List.infix_cons_iff, hloose, List.cons_prefix_cons, List.cons_prefix_cons,
      List.cons_prefix_cons]
    simp
  rw [mend_eq_self_iff, and_comm, ← not_or, ← hinfix]
  rfl

/-- A name is followed by a full stop. -/
theorem mend_stop_eq_iff {name : Text} : mend (name ++ ". ".toList) = name ++ ". ".toList ↔ mend name = name := by
  rw [mend_append_eq_iff not_continues_stop, and_iff_left (mend_of_comma_notMem (by decide))]

theorem mend_flatMap_comma_eq_iff {names : List Text} :
    mend (t ++ names.flatMap (", ".toList ++ ·)) = t ++ names.flatMap (", ".toList ++ ·) ↔
      mend t = t ∧ ∀ name ∈ names, ¬ looseComma <:+: name ∧ ¬ " and".toList <+: name := by
  induction names generalizing t with
  | nil => simp
  | cons name names ih =>
    have hborder : ¬ Text.Continues looseComma (", ".toList ++ name ++ names.flatMap (", ".toList ++ ·)) :=
      not_continues_of_head? rfl (by decide)
    rw [List.flatMap_cons, mend_append_eq_iff hborder, ih, mend_comma_eq_iff, List.forall_mem_cons]

/-- The last name is followed by a full stop, and the comma in front of it is loose. -/
theorem mend_last_eq_iff {last : Text} :
    mend (t ++ (", ".toList ++ (" and ".toList ++ (last ++ ". ".toList))))
        = t ++ (" and ".toList ++ (last ++ ". ".toList)) ↔
      mend t = t ∧ mend last = last := by
  have hlength : (" and ".toList ++ mend (last ++ ". ".toList)).length
      ≤ (" and ".toList ++ (last ++ ". ".toList)).length := by
    simpa using length_mend_le (last ++ ". ".toList)
  rw [mend_append (not_continues_comma _), mend_comma_and,
    append_eq_append_iff_of_length_le (length_mend_le t) hlength, List.append_cancel_left_eq, mend_stop_eq_iff]

section Intro

variable {intro a b c : Text}

private theorem mend_one_name (h : ',' ∉ intro) :
    mend (intro ++ a ++ ". ".toList) = intro ++ a ++ ". ".toList ↔ ¬ looseComma <:+: a := by
  rw [mend_stop_eq_iff, mend_append_eq_iff_of_comma_notMem h, mend_eq_self_iff]

private theorem mend_two_names (h : ',' ∉ intro) :
    mend (intro ++ (a ++ ", ".toList ++ (" and ".toList ++ b ++ ". ".toList)))
        = intro ++ a ++ " and ".toList ++ b ++ ". ".toList ↔
      ¬ looseComma <:+: a ∧ ¬ looseComma <:+: b := by
  have hlast := @mend_last_eq_iff (intro ++ a) b
  rw [mend_append_eq_iff_of_comma_notMem h, mend_eq_self_iff, mend_eq_self_iff] at hlast
  simpa only [List.append_assoc] using hlast

private theorem mend_three_names (h : ',' ∉ intro) :
    mend (intro ++ (a ++ ", ".toList ++ (b ++ ", ".toList ++ (" and ".toList ++ c ++ ". ".toList))))
        = intro ++ a ++ ", ".toList ++ b ++ " and ".toList ++ c ++ ". ".toList ↔
      ¬ looseComma <:+: a ∧ (¬ looseComma <:+: b ∧ ¬ " and".toList <+: b) ∧ ¬ looseComma <:+: c := by
  have hlast := @mend_last_eq_iff (intro ++ a ++ (", ".toList ++ b)) c
  rw [mend_append_eq_iff (not_continues_comma b), mend_append_eq_iff_of_comma_notMem h, mend_comma_eq_iff,
    mend_eq_self_iff, mend_eq_self_iff, and_assoc] at hlast
  simpa only [List.append_assoc] using hlast

end Intro

end Mend

/-! ### Sentences -/

section Sentences

variable (stats : ProjectStats)

private theorem comma_notMem_decimal (n : Nat) : ',' ∉ decimal n := by
  intro hcomma
  have hdigit := Nat.isDigit_of_mem_toDigits (by decide) (by decide) hcomma
  exact absurd hdigit (by decide)

private theorem comma_notMem_contributorSentence : ',' ∉ stats.contributorSentence := by
  unfold contributorSentence
  simp only [List.mem_append, not_or]
  refine ⟨⟨⟨⟨⟨?_, comma_notMem_decimal _⟩, ?_⟩, ?_⟩, comma_notMem_decimal _⟩, ?_⟩
  · exact Text.notMem_toList rfl (by decide)
  · split <;> exact Text.notMem_toList rfl (by decide)
  · exact Text.notMem_toList rfl (by decide)
  · split <;> exact Text.notMem_toList rfl (by decide)

private theorem comma_notMem_ownershipSentence : ',' ∉ stats.ownershipSentence := by
  unfold ownershipSentence
  simp only [List.mem_append, not_or]
  exact ⟨⟨Text.notMem_toList rfl (by decide), comma_notMem_decimal _⟩, Text.notMem_toList rfl (by decide)⟩

private theorem not_continues_sentence {start : String} {t : Text} (h : start = String.ofList ('T' :: t))
    (rest : Text) : ¬ Text.Continues looseComma (start.toList ++ rest) := by
  rw [h, String.toList_ofList]
  exact not_continues_of_head? rfl (by decide)

private theorem not_continues_ownershipSentence (rest : Text) :
    ¬ Text.Continues looseComma (stats.ownershipSentence ++ rest) := by
  unfold ownershipSentence
  rw [List.append_assoc, List.append_assoc]
  exact not_continues_sentence rfl _

private theorem not_continues_busFactorSentence {rest : Text} (h : ¬ Text.Continues looseComma rest) :
    ¬ Text.Continues looseComma (stats.busFactorSentence ++ rest) := by
  unfold busFactorSentence
  split
  · exact h
  · dsimp only
    split
    · simp only [List.append_assoc]
      exact not_continues_sentence rfl _
    · split <;> rw [List.append_assoc, List.append_assoc] <;> exact not_continues_sentence rfl _

/-- The sentences of a description are mended one by one, and two of them have nothing to be mended. -/
theorem describe_eq : stats.describe = stats.contributorSentence ++ mend stats.languageSentence
    ++ mend stats.busFactorSentence ++ stats.ownershipSentence ++ mend stats.relianceSentence := by
  have hdescribe : stats.describe = mend stats.draft := rfl
  have hownership := not_continues_ownershipSentence stats stats.relianceSentence
  rw [hdescribe, draft, List.append_assoc, List.append_assoc, List.append_assoc,
    mend_append_of_comma_notMem (comma_notMem_contributorSentence stats),
    mend_append (not_continues_busFactorSentence stats hownership), mend_append hownership,
    mend_append_of_comma_notMem (comma_notMem_ownershipSentence stats)]
  simp only [List.append_assoc]

private theorem comma_notMem_languagesIntro :
    ',' ∉ "The most important languages in this repository are ".toList :=
  Text.notMem_toList rfl (by decide)

theorem mend_languageSentence_eq_iff :
    mend stats.languageSentence = namedLanguages (stats.languages.map LanguageCount.language) ↔
      (∀ language ∈ stats.languages.take 3, ¬ looseComma <:+: language.language) ∧
        ∀ language ∈ (stats.languages.take 3).tail.dropLast, ¬ " and".toList <+: language.language := by
  obtain ⟨-, languages, -⟩ := stats
  rcases languages with _ | ⟨a, _ | ⟨b, _ | ⟨c, rest⟩⟩⟩
  · exact iff_of_true (mend_of_comma_notMem comma_notMem_languagesIntro) (by simp)
  · refine (mend_one_name (Text.notMem_toList rfl (by decide))).trans ?_
    simp
  · refine (mend_two_names comma_notMem_languagesIntro).trans ?_
    simp
  · refine (mend_three_names comma_notMem_languagesIntro).trans ?_
    constructor
    · rintro ⟨ha, ⟨hb, hand⟩, hc⟩
      exact ⟨by simp [ha, hb, hc], by simpa using hand⟩
    · rintro ⟨hnames, hand⟩
      exact ⟨hnames a (by simp), ⟨hnames b (by simp), hand b (by simp)⟩, hnames c (by simp)⟩

private theorem mend_top_name {n : Nat} {name : Text} :
    mend ("The project has a low bus factor of ".toList ++ decimal n ++ " and will be in trouble if ".toList ++ name
          ++ " is hit by a bus. ".toList)
        = "The project has a low bus factor of ".toList ++ decimal n ++ " and will be in trouble if ".toList ++ name
          ++ " is hit by a bus. ".toList ↔
      ¬ looseComma <:+: name := by
  have hintro : ',' ∉ "The project has a low bus factor of ".toList ++ decimal n
      ++ " and will be in trouble if ".toList := by
    simp only [List.mem_append, not_or]
    exact ⟨⟨Text.notMem_toList rfl (by decide), comma_notMem_decimal n⟩, Text.notMem_toList rfl (by decide)⟩
  have hend : ¬ Text.Continues looseComma " is hit by a bus. ".toList := by decide
  rw [mend_append_eq_iff hend, mend_append_eq_iff_of_comma_notMem hintro, mend_eq_self_iff,
    and_iff_left (mend_of_comma_notMem (Text.notMem_toList rfl (by decide)))]

theorem mend_busFactorSentence_eq_iff : mend stats.busFactorSentence = stats.busFactorSentence ↔
    (stats.owners.length < 5 → ∀ owner ∈ stats.owners.head?, ¬ looseComma <:+: owner.owner) := by
  unfold busFactorSentence
  split
  · next hnone => exact iff_of_true rfl (by simp [hnone])
  · next top _ hsome =>
    dsimp only
    split
    · next hlow =>
      rw [mend_top_name]
      constructor
      · intro hname _ owner howner
        rw [hsome, List.head?_cons] at howner
        exact Option.some.inj howner ▸ hname
      · exact fun h => h hlow top (by rw [hsome, List.head?_cons]; rfl)
    · next hhigh =>
      refine iff_of_true (mend_of_comma_notMem ?_) fun hlow => absurd hlow hhigh
      split <;> simp only [List.mem_append, not_or] <;>
        exact ⟨⟨Text.notMem_toList rfl (by decide), comma_notMem_decimal _⟩, Text.notMem_toList rfl (by decide)⟩

theorem comma_notMem_relianceIntro : ',' ∉ "The project relies on the following people; ".toList :=
  Text.notMem_toList rfl (by decide)

theorem mend_relianceSentence_eq_iff : mend stats.relianceSentence = stats.relianceSentence ↔
    (∀ owner ∈ stats.reliedUpon, ¬ looseComma <:+: owner.owner) ∧
      ∀ owner ∈ stats.reliedUpon.tail, ¬ " and".toList <+: owner.owner := by
  unfold relianceSentence
  generalize stats.reliedUpon = owners
  cases owners with
  | nil => exact iff_of_true rfl (by simp)
  | cons top rest =>
    rw [List.isEmpty_cons, if_neg Bool.false_ne_true, mend_stop_eq_iff,
      mend_append_eq_iff_of_comma_notMem comma_notMem_relianceIntro, List.map_cons, Text.intercalate_cons,
      mend_flatMap_comma_eq_iff, mend_eq_self_iff, List.forall_mem_map, List.forall_mem_cons, List.tail_cons,
      forall₂_and, and_assoc]

/-- A description has its sentences one after the other, each mended on its own.  The sentence about the languages has
the first three names as they are exactly if none of them has a loose comma and the middle one of three does not begin
with the word that makes the comma in front of it loose.  The sentence about the bus factor, if it names anybody, and
the one about those whom the project relies on have their names as they are on the same terms. -/
theorem describe_names_iff :
    stats.describe = stats.contributorSentence ++ mend stats.languageSentence ++ mend stats.busFactorSentence
        ++ stats.ownershipSentence ++ mend stats.relianceSentence ∧
      (mend stats.languageSentence = namedLanguages (stats.languages.map LanguageCount.language) ↔
        (∀ language ∈ stats.languages.take 3, ¬ looseComma <:+: language.language) ∧
          ∀ language ∈ (stats.languages.take 3).tail.dropLast, ¬ " and".toList <+: language.language) ∧
      (mend stats.busFactorSentence = stats.busFactorSentence ↔
        (stats.owners.length < 5 → ∀ owner ∈ stats.owners.head?, ¬ looseComma <:+: owner.owner)) ∧
      (mend stats.relianceSentence = stats.relianceSentence ↔
        (∀ owner ∈ stats.reliedUpon, ¬ looseComma <:+: owner.owner) ∧
          ∀ owner ∈ stats.reliedUpon.tail, ¬ " and".toList <+: owner.owner) :=
  ⟨describe_eq stats, mend_languageSentence_eq_iff stats, mend_busFactorSentence_eq_iff stats,
    mend_relianceSentence_eq_iff stats⟩

end Sentences

/-- In each of the three sentences a name is not what it was: the second language has lost the comma in front of it, the
first contributor the one inside the name, and the list of those whom the project relies on both. -/
theorem commas_are_lost_with_names :
    let languages := ["Go".toList, " and more".toList, "C".toList]
    let stats : ProjectStats :=
      ⟨4, languages.map (⟨·, 1⟩), [⟨"Ann,  and Bob".toList, 2⟩, ⟨" and Eve".toList, 2⟩]⟩
    ¬ namedLanguages languages <:+: stats.describe ∧
      ¬ "will be in trouble if Ann,  and Bob is hit by a bus. ".toList <:+: stats.describe ∧
      ¬ "relies on the following people; Ann,  and Bob,  and Eve. ".toList <:+: stats.describe := by
  intro languages stats
  have hdescribe : ¬ looseComma <:+: stats.describe := by decide +kernel
  have hsentence : ∀ sentence, looseComma <:+: sentence → ¬ sentence <:+: stats.describe :=
    fun sentence hloose hinfix => hdescribe (hloose.trans hinfix)
  exact ⟨hsentence _ (by decide), hsentence _ (by decide), hsentence _ (by decide)⟩

end SourceIndex.ProjectStats
