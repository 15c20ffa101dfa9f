import Mathlib.Data.List.SplitBy
import SourceIndex.Proofs.Keyword.VersionNumber

/-!
# The version words of a content

Read run by run, a text yields a version word for each longest run of small letters with a number after it
(`wordsOf_cons`, `wordsOf_append`).  These are the parts that a search for the pattern of version words stops at
(`finds_pattern`): the letters of a run are never shared out between two words, since no number begins with a letter.
So what a content yields is said by the longest numbers after its runs (`extract_longest`).
-/

namespace SourceIndex.Version

/-- Version words as a pattern. -/
def pattern : Text.Pattern := .seq (.many isLetter) (numberPattern 2)

/-- The version word at the front of a text that begins with a longest run of small letters. -/
def wordAt? (t : Text) : Option Text :=
  (number? maxGroups (t.dropWhile isLetter)).map (t.takeWhile isLetter ++ ·)

/-! ### Characters of numbers -/

private theorem isLetter_iff {c : Char} : isLetter c = true ↔ 0x61 ≤ c.toNat ∧ c.toNat ≤ 0x7A := by
  rw [isLetter, Bool.and_eq_true, decide_eq_true_iff, decide_eq_true_iff, Char.le_def, Char.le_def]
  exact Iff.rfl

private theorem isLetter_of_isDigit {c : Char} (h : c.isDigit = true) : isLetter c = false := by
  have hbounds : 0x30 ≤ c.toNat ∧ c.toNat ≤ 0x39 := Char.isDigit_iff_toNat.mp h
  rw [← Bool.not_eq_true, isLetter_iff]
  omega

theorem IsNumber.mem_cases {groups : Nat} {number : Text} (h : IsNumber groups number) {c : Char} (hc : c ∈ number) :
    c.isDigit = true ∨ c = '.' ∨ c = '*' := by
  induction h with
  | star groups => exact .inr (.inr (List.mem_singleton.mp hc))
  | digits groups hds => exact .inl (hds.2 c hc)
  | group hds _ ih =>
    rcases List.mem_append.mp hc with hc | hc
    · exact .inl (hds.2 c hc)
    · exact (List.mem_cons.mp hc).elim (fun hpoint => .inr (.inl hpoint)) ih

theorem IsNumber.isLetter_eq_false {groups : Nat} {number : Text} (h : IsNumber groups number) :
    ∀ c ∈ number, isLetter c = false := by
  intro c hc
  rcases h.mem_cases hc with hdigit | rfl | rfl
  · exact isLetter_of_isDigit hdigit
  · decide
  · decide

/-- A number does not go on behind a character that no number holds. -/
theorem number?_append_of_notMem {groups : Nat} {front t : Text}
    (ht : ∀ c ∈ t.head?, ∀ number, IsNumber groups number → c ∉ number) :
    number? groups (front ++ t) = number? groups front := by
  have hsame : ∀ {v}, IsNumber groups v → (v <+: front ++ t ↔ v <+: front) := by
    refine fun {v} hv => ⟨fun h => ?_, fun h => h.trans (List.prefix_append front t)⟩
    rcases List.prefix_or_prefix_of_prefix h (List.prefix_append front t) with hshort | ⟨more, rfl⟩
    · exact hshort
    · cases more with
      | nil => rw [List.append_nil]
      | cons c more =>
        obtain ⟨rest, rfl⟩ := (List.prefix_append_right_inj front).mp h
        exact absurd (List.mem_append_right front List.mem_cons_self) (ht c rfl _ hv)
  ext u
  rw [number?_eq_some_iff, number?_eq_some_iff]
  constructor
  · intro h
    exact ⟨h.holds, (hsame h.holds).mp h.front_prefix, fun v hv hprefix => h.length_le v hv ((hsame hv).mpr hprefix)⟩
  · intro h
    exact ⟨h.holds, (hsame h.holds).mpr h.front_prefix, fun v hv hprefix => h.length_le v hv ((hsame hv).mp hprefix)⟩

/-- A number does not go on behind a letter. -/
theorem number?_append {groups : Nat} {front t : Text} (ht : ∀ c ∈ t.head?, isLetter c = true) :
    number? groups (front ++ t) = number? groups front := by
  refine number?_append_of_notMem fun c hc number hnumber hmem => ?_
  exact Bool.false_ne_true ((hnumber.isLetter_eq_false c hmem).symm.trans (ht c hc))

theorem number?_letter {groups : Nat} {c : Char} (hc : isLetter c = true) (t : Text) :
    number? groups (c :: t) = none := by
  have hempty : number? groups [] = none := number?_of_not_digit (by simp)
  exact (@number?_append groups [] (c :: t) (by simpa using hc)).trans hempty

/-! ### Reading run by run -/

private theorem runs_append {kind : Bool} {front t : Text} (hne : front ≠ []) (hfront : ∀ c ∈ front, isLetter c = kind)
    (ht : ∀ c ∈ t.head?, isLetter c = !kind) : runs (front ++ t) = front :: runs t := by
  have hchain : front.IsChain fun a b => (isLetter a == isLetter b) = true := by
    refine (List.pairwise_of_forall_mem_list fun a ha b hb => ?_).isChain
    rw [hfront a ha, hfront b hb, beq_self_eq_true]
  have hjoint : ∀ a ∈ front.getLast?, ∀ b ∈ t.head?, (isLetter a == isLetter b) = false := by
    intro a ha b hb
    rw [hfront a (List.mem_of_getLast? ha), ht b hb]
    cases kind <;> rfl
  rw [runs, List.splitBy_append hjoint, List.splitBy_of_isChain hne hchain]
  rfl

private theorem wordsOf_eq {kind : Bool} {front t : Text} (hne : front ≠ []) (hfront : ∀ c ∈ front, isLetter c = kind)
    (ht : ∀ c ∈ t.head?, isLetter c = !kind) :
    wordsOf (front ++ t) = ((runs t).head?.bind (word? front)).toList ++ wordsOf t := by
  rw [wordsOf, runs_append hne hfront ht]
  cases hruns : runs t with
  | nil => simp [wordsOf, hruns]
  | cons next rest =>
    rw [List.tail_cons, List.zip_cons_cons, List.filterMap_cons]
    cases hword : word? front next with
    | none => simp [wordsOf, hruns, hword]
    | some word => simp [wordsOf, hruns, hword]

theorem wordsOf_nil : wordsOf [] = [] := rfl

private theorem wordsOf_append_of_not_letter {front t : Text} (hfront : ∀ c ∈ front, isLetter c = false)
    (ht : ∀ c ∈ t.head?, isLetter c = true) : wordsOf (front ++ t) = wordsOf t := by
  cases front with
  | nil => rfl
  | cons c front =>
    have hnone : word? (c :: front) = fun _ => none := by
      funext next
      simp [word?, hfront c List.mem_cons_self]
    rw [wordsOf_eq (List.cons_ne_nil c front) hfront ht, hnone, Option.bind_fun_none]
    rfl

private theorem exists_front_append (t : Text) : ∃ front rest, t = front ++ rest ∧
    (∀ c ∈ front, isLetter c = false) ∧ ∀ c ∈ rest.head?, isLetter c = true := by
  simpa using Text.exists_front_append (!isLetter ·) t

theorem wordsOf_cons {c : Char} (hc : isLetter c = false) (t : Text) : wordsOf (c :: t) = wordsOf t := by
  obtain ⟨front, rest, rfl, hfront, hrest⟩ := exists_front_append t
  have hcons : ∀ d ∈ c :: front, isLetter d = false := List.forall_mem_cons.mpr ⟨hc, hfront⟩
  rw [← List.cons_append, wordsOf_append_of_not_letter hcons hrest, wordsOf_append_of_not_letter hfront hrest]

theorem wordsOf_append {run t : Text} (hne : run ≠ []) (hrun : ∀ c ∈ run, isLetter c = true)
    (hstop : ∀ c ∈ t.head?, isLetter c = false) :
    wordsOf (run ++ t) = ((number? maxGroups t).map (run ++ ·)).toList ++ wordsOf t := by
  rw [wordsOf_eq hne hrun hstop]
  congr 2
  obtain ⟨front, rest, rfl, hfront, hrest⟩ := exists_front_append t
  rw [number?_append hrest]
  cases front with
  | nil =>
    -- nothing can follow then
    cases rest with
    | nil => rfl
    | cons c rest => exact absurd (hstop c rfl) (by simp [hrest c rfl])
  | cons c front =>
    rw [runs_append (List.cons_ne_nil c front) hfront hrest]
    exact if_pos (List.all_eq_true.mpr hrun)

theorem wordsOf_eq_filterMap (t : Text) : wordsOf t = (Text.fromRuns isLetter t).filterMap wordAt? := by
  induction t using Text.run_induction isLetter with
  | nil => rw [wordsOf_nil, Text.fromRuns_nil, List.filterMap_nil]
  | other c t hc ih => rw [wordsOf_cons hc, Text.fromRuns_cons hc, ih]
  | run run t hne hrun hstop ih =>
    have hword : wordAt? (run ++ t) = (number? maxGroups t).map (run ++ ·) := by
      rw [wordAt?, Text.dropWhile_run hrun hstop, Text.takeWhile_run hrun hstop]
    rw [wordsOf_append hne hrun hstop, Text.fromRuns_append hne hrun hstop, List.filterMap_cons, hword, ih]
    cases number? maxGroups t with
    | none => rfl
    | some number => rfl

/-! ### Searching for the pattern -/

private theorem first?_pattern {run t : Text} (hne : run ≠ []) (hrun : ∀ c ∈ run, isLetter c = true)
    (hstop : ∀ c ∈ t.head?, isLetter c = false) :
    pattern.first? (run ++ t) = (number? maxGroups t).map (run ++ ·) := by
  have hletter : ∀ c t, isLetter c = true → (numberPattern maxGroups).matchings (c :: t) = [] := by
    intro c t hc
    exact List.head?_eq_none_iff.mp ((first?_numberPattern maxGroups (c :: t)).trans (number?_letter hc t))
  have hpattern : pattern = .seq (.many isLetter) (numberPattern maxGroups) := rfl
  rw [Text.Pattern.first?, hpattern, Text.Pattern.matchings_many_seq_append hletter hne hrun hstop, List.head?_map,
    ← Text.Pattern.first?, first?_numberPattern]

private theorem finds_append_of_not_letter {front t : Text} (hfront : ∀ c ∈ front, isLetter c = false) :
    pattern.finds (front ++ t) = pattern.finds t := by
  induction front with
  | nil => rfl
  | cons c front ih =>
    obtain ⟨hc, hfront⟩ := List.forall_mem_cons.mp hfront
    have hnone : pattern.first? (c :: (front ++ t)) = none := by
      rw [Text.Pattern.first?, pattern, Text.Pattern.matchings_many_seq_of_neg (by simpa using hc)]
      rfl
    rw [List.cons_append, Text.Pattern.finds_cons hnone, ih hfront]

/-- Without a number after it, a run of letters is passed over, one letter after the other. -/
private theorem finds_append_of_none {run t : Text} (hrun : ∀ c ∈ run, isLetter c = true)
    (hstop : ∀ c ∈ t.head?, isLetter c = false) (h : number? maxGroups t = none) :
    pattern.finds (run ++ t) = pattern.finds t := by
  induction run with
  | nil => rfl
  | cons c run ih =>
    have hnone : pattern.first? (c :: (run ++ t)) = none := by
      rw [← List.cons_append, first?_pattern (List.cons_ne_nil c run) hrun hstop, h]
      rfl
    rw [List.cons_append, Text.Pattern.finds_cons hnone, ih fun d hd => hrun d (List.mem_cons_of_mem c hd)]

theorem finds_pattern (t : Text) : pattern.finds t = wordsOf t := by
  induction t using Text.run_induction isLetter with
  | nil => rw [Text.Pattern.finds_nil, wordsOf_nil]
  | other c t hc ih =>
    rw [wordsOf_cons hc, ← ih]
    exact @finds_append_of_not_letter [c] t (List.forall_mem_singleton.mpr hc)
  | run run t hne hrun hstop ih =>
    rw [wordsOf_append hne hrun hstop, ← ih]
    cases hnumber : number? maxGroups t with
    | none => exact finds_append_of_none hrun hstop hnumber
    | some number =>
      obtain ⟨hholds, ⟨rest, rfl⟩, -⟩ := number?_eq_some_iff.mp hnumber
      have hfirst : pattern.first? (run ++ number ++ rest) = some (run ++ number) := by
        rw [List.append_assoc, first?_pattern hne hrun hstop, hnumber]
        rfl
      rw [← List.append_assoc, Text.Pattern.finds_append (List.append_ne_nil_of_left_ne_nil hne number) hfirst,
        finds_append_of_not_letter hholds.isLetter_eq_false]
      rfl

/-! ### Places -/

/-- Whether a text is a version word that begins with a certain run of small letters. -/
def IsWord (run word : Text) : Prop := ∃ number, IsNumber 2 number ∧ word = run ++ number

/-- Whether a digit or a star stands after the run of small letters at a place. -/
def isNumbered (content : Text) (place : Nat) : Bool :=
  ((content.drop place).dropWhile isLetter).head?.any fun c => c.isDigit || c == '*'

private theorem isSome_wordAt? (content : Text) (place : Nat) :
    (wordAt? (content.drop place)).isSome = isNumbered content place := by
  rw [wordAt?, Option.isSome_map, isSome_number?, isNumbered]

theorem isLongestFront_of_wordAt? {t word : Text} (h : wordAt? t = some word) :
    Text.IsLongestFront (IsWord (t.takeWhile isLetter)) t word := by
  obtain ⟨number, hnumber, rfl⟩ := Option.map_eq_some_iff.mp h
  obtain ⟨hholds, hprefix, hlength⟩ := number?_eq_some_iff.mp hnumber
  have hsplit : t.takeWhile isLetter ++ t.dropWhile isLetter = t := List.takeWhile_append_dropWhile
  refine ⟨⟨number, hholds, rfl⟩, ?_, ?_⟩
  · conv => rhs; rw [← hsplit]
    exact (List.prefix_append_right_inj _).mpr hprefix
  · rintro other ⟨v, hv, rfl⟩ hother
    conv at hother => rhs; rw [← hsplit]
    have hle := hlength v hv ((List.prefix_append_right_inj _).mp hother)
    simpa using hle

/-- A version word ends before the next run of small letters begins. -/
private theorem add_length_le {content word : Text} {place next : Nat}
    (hword : wordAt? (content.drop place) = some word) (hlt : place < next)
    (hnext : Text.beginsRun isLetter content next = true) : place + word.length ≤ next := by
  obtain ⟨⟨number, hnumber, hparts⟩, ⟨rest, hrest⟩, -⟩ := isLongestFront_of_wordAt? hword
  rw [Text.beginsRun, Bool.and_eq_true, Bool.not_eq_true', List.head?_drop, List.getLast?_take] at hnext
  obtain ⟨hbegins, hbefore⟩ := hnext
  obtain ⟨i, rfl⟩ : ∃ i, next = place + (i + 1) := ⟨next - place - 1, by omega⟩
  have hread : ∀ j < word.length, content[place + j]? = word[j]? := by
    intro j hj
    rw [← List.getElem?_drop, ← hrest, List.getElem?_append_left hj]
  by_contra hover
  -- the letter at the next place is none of the number, and then the character before it belongs to the run
  have hinside : i + 1 < word.length := by omega
  rw [hread _ hinside] at hbegins
  rw [if_neg (by omega), show place + (i + 1) - 1 = place + i by omega, hread i (by omega)] at hbefore
  have hrun : i + 1 < ((content.drop place).takeWhile isLetter).length := by
    by_contra hlong
    rw [hparts, List.getElem?_append_right (by omega)] at hbegins
    obtain ⟨c, hc, hletter⟩ := (Option.any_eq_true _ _).mp hbegins
    rw [hnumber.isLetter_eq_false c (List.mem_of_getElem? hc)] at hletter
    exact Bool.false_ne_true hletter
  have hletter := List.mem_takeWhile_imp (List.getElem_mem (Nat.lt_of_succ_lt hrun))
  rw [hparts, List.getElem?_append_left (by omega), List.getElem?_eq_getElem (by omega), Option.some_or,
    Option.any_some, hletter] at hbefore
  exact Bool.false_ne_true hbefore.symm

/-- The version word at a place at which a longest run of small letters begins, with the place. -/
private def placedWord? (content : Text) (place : Nat) : Option (Nat × Text) :=
  (wordAt? (content.drop place)).map (place, ·)

private theorem placedWord?_eq_some {content : Text} {place : Nat} {found : Nat × Text}
    (h : placedWord? content place = some found) : found.1 = place ∧ wordAt? (content.drop place) = some found.2 := by
  obtain ⟨word, hword, rfl⟩ := Option.map_eq_some_iff.mp h
  exact ⟨rfl, hword⟩

/-- A content within the limit yields, each after a space and from left to right, one word for each longest run of small
letters that a digit or a star stands after.  It is the longest text there that consists of the run and a version number
with at most two groups, and it ends before the next run begins.  These words are what a search for the pattern of
version words finds. -/
theorem extract_longest {limit : Nat} {content : Text} (h : content.length ≤ limit) :
    ∃ found : List (Nat × Text), extract limit content = Text.spaced (found.map Prod.snd) ∧
      found.map Prod.fst = (Text.runPlaces isLetter content).filter (isNumbered content) ∧
      (∀ place word, (place, word) ∈ found →
        Text.IsLongestFront (IsWord ((content.drop place).takeWhile isLetter)) (content.drop place) word) ∧
      found.Pairwise (fun a b => a.1 + a.2.length ≤ b.1) ∧
      pattern.finds content = found.map Prod.snd := by
  have hwords : ((Text.runPlaces isLetter content).filterMap (placedWord? content)).map Prod.snd = wordsOf content := by
    rw [wordsOf_eq_filterMap, Text.fromRuns, List.map_filterMap, List.filterMap_map]
    refine List.filterMap_congr fun place _ => ?_
    rw [placedWord?, Option.map_map]
    exact Option.map_id'
  refine ⟨(Text.runPlaces isLetter content).filterMap (placedWord? content), ?_, ?_, ?_, ?_, ?_⟩
  · rw [hwords, extract, words, Text.clip_of_length_le h]
  · rw [List.map_filterMap, ← List.filterMap_eq_filter]
    refine List.filterMap_congr fun place _ => ?_
    rw [placedWord?, Option.map_map, Option.guard, ← isSome_wordAt?]
    cases wordAt? (content.drop place) <;> rfl
  · intro place word hmem
    obtain ⟨start, -, hfound⟩ := List.mem_filterMap.mp hmem
    obtain ⟨rfl, hword⟩ := placedWord?_eq_some hfound
    exact isLongestFront_of_wordAt? hword
  · rw [List.pairwise_filterMap]
    have hsorted : (Text.runPlaces isLetter content).Pairwise (· < ·) := List.pairwise_lt_range.filter _
    refine hsorted.imp_of_mem fun _ hmem hlt a ha b hb => ?_
    obtain ⟨rfl, hword⟩ := placedWord?_eq_some ha
    obtain ⟨rfl, -⟩ := placedWord?_eq_some hb
    exact add_length_le hword hlt (List.mem_filter.mp hmem).2
  · rw [finds_pattern, hwords]

/-- Groups without a number after them are given up, and a third group is not tried. -/
theorem extract_given_up_groups :
    let content := "a1. b1.2.x zz c1.2.3.4 d* 9".toList
    content.length ≤ 40 ∧ extract 40 content = " a1 b1.2 c1.2.3 d*".toList ∧
      Text.IsLongestFront (IsWord ['b']) (content.drop 4) "b1.2".toList ∧
      pattern.finds content = ["a1".toList, "b1.2".toList, "c1.2.3".toList, "d*".toList] := by
  intro content
  have hlength : content.length ≤ 40 := by decide
  obtain ⟨found, hextract, hplaces, hlongest, -, hfinds⟩ := extract_longest hlength
  have hwords : found.map Prod.snd = ["a1".toList, "b1.2".toList, "c1.2.3".toList, "d*".toList] :=
    hfinds.symm.trans (by decide +kernel)
  have hstarts : found.map Prod.fst = [0, 4, 14, 23] := hplaces.trans (by decide +kernel)
  have hfound : found = [(0, "a1".toList), (4, "b1.2".toList), (14, "c1.2.3".toList), (23, "d*".toList)] := by
    rw [← List.zip_unzip found, List.unzip_eq_map, hstarts, hwords]
    rfl
  have hsecond := hlongest 4 "b1.2".toList (hfound ▸ by decide)
  exact ⟨hlength, by rw [hextract, hwords]; rfl, hsecond, hfinds.trans hwords⟩

end SourceIndex.Version
