import SourceIndex.Proofs.Keyword.VersionWords

/-!
# Version words that a limit cuts

A content longer than the limit is read up to the limit, with a mark behind it.  No version number holds a character
of the mark, so the mark changes no word (`wordsOf_append_cutMark`), and it does not take back what is left of a number
that the limit parts (`PartsNumber`).  If the limit parts no number, then the words up to the limit are the first words
of the content; otherwise the last of them is the beginning of a word and not all of it (`wordsOf_take_cases`).
-/

namespace SourceIndex.Version

/-- Whether a limit parts a version number of a content: it comes behind the beginning of a number that stands after a
small letter, but before the end of the number. -/
def PartsNumber (limit : Nat) (content : Text) : Prop :=
  ∃ front c rest number, content = front ++ c :: rest ∧ isLetter c = true ∧
    Text.IsLongestFront (IsNumber 2) rest number ∧ front.length + 1 < limit ∧ limit < front.length + 1 + number.length

/-! ### The mark of a cut -/

private theorem number?_append_cutMark (groups : Nat) (t : Text) :
    number? groups (t ++ Text.cutMark) = number? groups t := by
  refine number?_append_of_notMem fun c hc number hnumber hmem => ?_
  obtain rfl : 'A' = c := Option.some.inj hc
  rcases hnumber.mem_cases hmem with h | h | h <;> exact absurd h (by decide)

theorem wordsOf_append_cutMark (t : Text) : wordsOf (t ++ Text.cutMark) = wordsOf t := by
  induction t using Text.run_induction isLetter with
  | nil => decide
  | other c t hc ih => rw [List.cons_append, wordsOf_cons hc, wordsOf_cons hc, ih]
  | run run t hne hrun hstop ih =>
    have hmark : ∀ c ∈ (t ++ Text.cutMark).head?, isLetter c = false := by
      cases t with
      | nil =>
        intro c hc
        obtain rfl : 'A' = c := Option.some.inj hc
        rfl
      | cons d t => exact hstop
    rw [List.append_assoc, wordsOf_append hne hrun hmark, wordsOf_append hne hrun hstop, number?_append_cutMark, ih]

theorem words_eq_wordsOf_take (limit : Nat) (content : Text) : words limit content = wordsOf (content.take limit) := by
  by_cases h : content.length ≤ limit
  · rw [words, Text.clip_of_length_le h, List.take_of_length_le h]
  · rw [words, Text.clip_of_lt_length (by omega), wordsOf_append_cutMark]

/-! ### Numbers that a limit cuts -/

section Number

variable {groups limit : Nat} {t number : Text}

private theorem number?_take_of_none (h : number? groups t = none) : number? groups (t.take limit) = none := by
  rw [← Option.not_isSome_iff_eq_none, isSome_number?] at h ⊢
  cases limit with
  | zero => simp
  | succ limit => rwa [List.head?_take, if_neg (Nat.succ_ne_zero limit)]

private theorem number?_take_of_length_le (h : number? groups t = some number) (hle : number.length ≤ limit) :
    number? groups (t.take limit) = some number := by
  rw [number?_eq_some_iff] at h ⊢
  exact ⟨h.holds, List.prefix_take_iff.mpr ⟨h.front_prefix, hle⟩,
    fun other hother hfront => h.length_le other hother (hfront.trans (List.take_prefix limit t))⟩

/-- The beginning of a number begins with a number. -/
private theorem exists_number?_take (h : number? groups t = some number) (hpos : 0 < limit) :
    ∃ cut, number? groups (t.take limit) = some cut ∧ cut <+: number ∧ cut.length ≤ limit := by
  have hsome : (number? groups (t.take limit)).isSome = true := by
    rw [isSome_number?, List.head?_take, if_neg (by omega), ← isSome_number? groups, h, Option.isSome_some]
  obtain ⟨cut, hcut⟩ := Option.isSome_iff_exists.mp hsome
  have hlongest := number?_eq_some_iff.mp hcut
  have hnumber := number?_eq_some_iff.mp h
  have hfront : cut <+: t := hlongest.front_prefix.trans (List.take_prefix limit t)
  refine ⟨cut, hcut, ?_, (List.prefix_take_iff.mp hlongest.front_prefix).2⟩
  exact List.prefix_of_prefix_length_le hfront hnumber.front_prefix (hnumber.length_le cut hlongest.holds hfront)

end Number

/-! ### Limits that part a number -/

section Parts

variable {limit : Nat} {t : Text}

theorem not_partsNumber_zero : ¬ PartsNumber 0 t := by
  rintro ⟨front, c, rest, number, -, -, -, hlow, -⟩
  omega

theorem not_partsNumber_nil : ¬ PartsNumber limit [] := by
  rintro ⟨front, c, rest, number, hcontent, -⟩
  simp at hcontent

theorem partsNumber_cons {d : Char} (hd : isLetter d = false) :
    PartsNumber (limit + 1) (d :: t) ↔ PartsNumber limit t := by
  constructor
  · rintro ⟨front, c, rest, number, hcontent, hc, hnumber, hlow, hhigh⟩
    obtain ⟨rfl, hcons⟩ | ⟨front, rfl, rfl⟩ := List.cons_eq_append_iff.mp hcontent
    · obtain ⟨rfl, -⟩ := List.cons.inj hcons
      simp [hd] at hc
    · rw [List.length_cons] at hlow hhigh
      exact ⟨front, c, rest, number, rfl, hc, hnumber, by omega, by omega⟩
  · rintro ⟨front, c, rest, number, rfl, hc, hnumber, hlow, hhigh⟩
    refine ⟨d :: front, c, rest, number, rfl, hc, hnumber, ?_, ?_⟩
    · rw [List.length_cons]
      omega
    · rw [List.length_cons]
      omega

/-- A limit parts the number behind the first run of letters, or one further on. -/
theorem partsNumber_append {run : Text} (hne : run ≠ []) (hrun : ∀ c ∈ run, isLetter c = true) :
    PartsNumber limit (run ++ t) ↔
      (∃ number, number? maxGroups t = some number ∧ run.length < limit ∧ limit < run.length + number.length) ∨
        PartsNumber (limit - run.length) t := by
  constructor
  · rintro ⟨front, c, rest, number, hcontent, hc, hnumber, hlow, hhigh⟩
    have hread : number? maxGroups rest = some number := number?_eq_some_iff.mpr hnumber
    rcases List.append_eq_append_iff.mp hcontent with ⟨more, rfl, rfl⟩ | ⟨more, rfl, hmore⟩
    · rw [List.length_append] at hlow hhigh
      exact .inr ⟨more, c, rest, number, rfl, hc, hnumber, by omega, by omega⟩
    · obtain ⟨rfl, rfl⟩ | ⟨more, rfl, rfl⟩ := List.cons_eq_append_iff.mp hmore
      · rw [List.append_nil]
        exact .inr ⟨[], c, rest, number, rfl, hc, hnumber, by simp; omega, by simp; omega⟩
      · -- the run ends with the letter before the number
        cases more with
        | nil => exact .inl ⟨number, hread, by simpa using hlow, by simpa using hhigh⟩
        | cons d more =>
          have hd : isLetter d = true := hrun d (by simp)
          rw [List.cons_append, number?_letter hd] at hread
          exact absurd hread (Option.some_ne_none number).symm
  · rintro (⟨number, hnumber, hlow, hhigh⟩ | ⟨front, c, rest, number, rfl, hc, hnumber, hlow, hhigh⟩)
    · obtain ⟨front, c, rfl⟩ := (List.eq_nil_or_concat' run).resolve_left hne
      rw [List.length_append, List.length_singleton] at hlow hhigh
      exact ⟨front, c, t, number, by simp, hrun c (by simp), number?_eq_some_iff.mp hnumber, hlow, hhigh⟩
    · refine ⟨run ++ front, c, rest, number, by simp, hc, hnumber, ?_, ?_⟩
      · rw [List.length_append]
        omega
      · rw [List.length_append]
        omega

end Parts

/-! ### Words up to a limit -/

theorem wordsOf_of_forall_letter {t : Text} (h : ∀ c ∈ t, isLetter c = true) : wordsOf t = [] := by
  cases t with
  | nil => rfl
  | cons c t =>
    have hend : ∀ d ∈ ([] : Text).head?, isLetter d = false := by simp
    have hwords := wordsOf_append (List.cons_ne_nil c t) h hend
    rw [List.append_nil] at hwords
    exact hwords

theorem wordsOf_of_forall_not_letter {t : Text} (h : ∀ c ∈ t, isLetter c = false) : wordsOf t = [] := by
  induction t with
  | nil => rfl
  | cons c t ih =>
    obtain ⟨hc, ht⟩ := List.forall_mem_cons.mp h
    rw [wordsOf_cons hc, ih ht]

section Run

variable {run t number : Text} {k : Nat}

private theorem partsNumber_append_of_whole (hne : run ≠ []) (hrun : ∀ c ∈ run, isLetter c = true)
    (h : ∀ number, number? maxGroups t = some number → number.length ≤ k) :
    PartsNumber (run.length + k) (run ++ t) ↔ PartsNumber k t := by
  rw [partsNumber_append hne hrun, Nat.add_sub_cancel_left]
  refine or_iff_right ?_
  rintro ⟨number, hnumber, -, hhigh⟩
  have hwhole := h number hnumber
  omega

/-- Up to a limit inside the number behind it, a run of letters gives one word, without the end of the number. -/
private theorem wordsOf_append_take_inside (hne : run ≠ []) (hrun : ∀ c ∈ run, isLetter c = true)
    (hstop : ∀ c ∈ (t.take k).head?, isLetter c = false) (hnumber : number? maxGroups t = some number) (hpos : 0 < k)
    (hinside : k < number.length) :
    ∃ cut, wordsOf (run ++ t.take k) = [run ++ cut] ∧ cut <+: number ∧ cut ≠ number := by
  obtain ⟨cut, hcut, hfront, hlength⟩ := exists_number?_take hnumber hpos
  have hlongest := number?_eq_some_iff.mp hnumber
  have hleft : t.take k <+: number :=
    List.prefix_of_prefix_length_le (List.take_prefix k t) hlongest.front_prefix (by rw [List.length_take]; omega)
  have hnone : wordsOf (t.take k) = [] :=
    wordsOf_of_forall_not_letter fun c hc => hlongest.holds.isLetter_eq_false c (hleft.subset hc)
  refine ⟨cut, ?_, hfront, ?_⟩
  · rw [wordsOf_append hne hrun hstop, hcut, hnone]
    rfl
  · rintro rfl
    omega

end Run

/-- The words of a text up to a limit are its first words, but if the limit parts a number, then the last of them is
only the beginning of a word of the text. -/
theorem wordsOf_take_cases (limit : Nat) (t : Text) :
    ¬ PartsNumber limit t ∧ wordsOf (t.take limit) <+: wordsOf t ∨
      PartsNumber limit t ∧ ∃ before cut word after, wordsOf t = before ++ word :: after ∧
        wordsOf (t.take limit) = before ++ [cut] ∧ cut <+: word ∧ cut ≠ word := by
  induction t using Text.run_induction isLetter generalizing limit with
  | nil => exact .inl ⟨not_partsNumber_nil, by rw [List.take_nil]⟩
  | other c t hc ih =>
    cases limit with
    | zero => exact .inl ⟨not_partsNumber_zero, List.nil_prefix⟩
    | succ limit =>
      rw [List.take_succ_cons, wordsOf_cons hc, wordsOf_cons hc, partsNumber_cons hc]
      exact ih limit
  | run run t hne hrun hstop ih =>
    by_cases hshort : limit ≤ run.length
    · -- the limit leaves letters only
      have hnone : wordsOf ((run ++ t).take limit) = [] := by
        rw [List.take_append_of_le_length hshort]
        exact wordsOf_of_forall_letter fun c hc => hrun c (List.mem_of_mem_take hc)
      rw [hnone, partsNumber_append hne hrun, Nat.sub_eq_zero_of_le hshort]
      refine .inl ⟨?_, List.nil_prefix⟩
      rintro (⟨number, -, hlow, -⟩ | hzero)
      · omega
      · exact not_partsNumber_zero hzero
    · obtain ⟨k, rfl⟩ : ∃ k, limit = run.length + k := ⟨limit - run.length, by omega⟩
      have hstop' : ∀ c ∈ (t.take k).head?, isLetter c = false := by
        intro c hc
        rw [List.head?_take, if_neg (by omega)] at hc
        exact hstop c hc
      rw [List.take_length_add_append]
      by_cases hwhole : ∀ number, number? maxGroups t = some number → number.length ≤ k
      · -- the word of the run is the same up to the limit, and the cases are those of the rest
        have hread : number? maxGroups (t.take k) = number? maxGroups t := by
          cases hnumber : number? maxGroups t with
          | none => exact number?_take_of_none hnumber
          | some number => exact number?_take_of_length_le hnumber (hwhole number hnumber)
        rw [partsNumber_append_of_whole hne hrun hwhole, wordsOf_append hne hrun hstop', hread,
          wordsOf_append hne hrun hstop]
        rcases ih k with ⟨hnot, hwords⟩ | ⟨hparts, before, cut, word, after, hwords, hleft, hcut⟩
        · exact .inl ⟨hnot, (List.prefix_append_right_inj _).mpr hwords⟩
        · refine .inr ⟨hparts, ((number? maxGroups t).map (run ++ ·)).toList ++ before, cut, word, after, ?_, ?_, hcut⟩
          · rw [hwords, List.append_assoc]
          · rw [hleft, List.append_assoc]
      · push Not at hwhole
        obtain ⟨number, hnumber, hinside⟩ := hwhole
        obtain ⟨cut, hwords, hfront, hcut⟩ := wordsOf_append_take_inside hne hrun hstop' hnumber (by omega) hinside
        refine .inr ⟨?_, [], run ++ cut, run ++ number, wordsOf t, ?_, hwords, ?_, ?_⟩
        · exact (partsNumber_append hne hrun).mpr (.inl ⟨number, hnumber, by omega, by omega⟩)
        · rw [wordsOf_append hne hrun hstop, hnumber]
          rfl
        · exact (List.prefix_append_right_inj run).mpr hfront
        · exact fun hsame => hcut (List.append_cancel_left hsame)

/-- What a content yields up to a limit is always the beginning of what it yields as a whole.  But its words up to the
limit are the first of its words only if the limit parts no version number: otherwise the last of them is a word of the
content without its end, which the mark of the cut does not keep from being taken for a word. -/
theorem words_limit {content : Text} {n : Nat} (h : content.length ≤ n) (limit : Nat) :
    (words limit content <+: words n content ↔ ¬ PartsNumber limit content) ∧
      (PartsNumber limit content → ∃ before cut word after, words n content = before ++ word :: after ∧
        words limit content = before ++ [cut] ∧ cut <+: word ∧ cut ≠ word) ∧
      extract limit content <+: extract n content := by
  rw [extract, extract, words_eq_wordsOf_take limit, words_eq_wordsOf_take n, List.take_of_length_le h]
  rcases wordsOf_take_cases limit content with
    ⟨hnot, hwords⟩ | ⟨hparts, before, cut, word, after, hwords, hleft, hcut, hne⟩
  · refine ⟨iff_of_true hwords hnot, fun hparts => absurd hparts hnot, ?_⟩
    obtain ⟨rest, hrest⟩ := hwords
    rw [← hrest, Text.spaced, Text.spaced, List.flatMap_append]
    exact List.prefix_append _ _
  · refine ⟨iff_of_false ?_ (not_not.mpr hparts), fun _ => ⟨before, cut, word, after, hwords, hleft, hcut, hne⟩, ?_⟩
    · rw [hwords, hleft, List.prefix_append_right_inj, List.cons_prefix_cons]
      exact fun hsame => hne hsame.1
    · obtain ⟨rest, rfl⟩ := hcut
      rw [hwords, hleft]
      refine ⟨rest ++ Text.spaced after, ?_⟩
      simp [Text.spaced]

/-- Cut behind the point, the second word ends with its first group, which is a version word of its own. -/
theorem words_limit_behind_point :
    let content := "v* go1.22 c99".toList
    content.length ≤ 20 ∧ PartsNumber 7 content ∧ words 7 content = ["v*".toList, "go1".toList] ∧
      ¬ words 7 content <+: words 20 content ∧ words 9 content <+: words 20 content ∧
      extract 7 content <+: extract 20 content := by
  intro content
  have hlength : content.length ≤ 20 := by decide
  have hwords : ¬ words 7 content <+: words 20 content := by decide +kernel
  obtain ⟨hiff, -, hextract⟩ := words_limit hlength 7
  refine ⟨hlength, ?_, by decide +kernel, hwords, by decide +kernel, hextract⟩
  exact not_not.mp (mt hiff.mpr hwords)

/-- A limit inside the digits leaves a word which the content does not have. -/
theorem shortened_number_is_word :
    let content := "php74".toList
    content.length ≤ 5 ∧ words 5 content = ["php74".toList] ∧ words 4 content = ["php7".toList] ∧
      ¬ words 4 content <+: words 5 content := by
  decide +kernel

end SourceIndex.Version
