import Mathlib.Data.Set.Card
import SourceIndex.Proofs.Keyword.CompoundPieces
import SourceIndex.Proofs.Spelling.NearestWord
import SourceIndex.Proofs.Text.LowercaseLetters
import SourceIndex.Session

/-!
# The dictionary of a session

A session's dictionary is the multiset of the words recorded so far.  A request records some words in order
(`Request.recorded`), most requests none, and a run from the empty dictionary counts the words of all its requests
(`final_eq_recordAll`).  So the order of the requests does not matter for what is answered later, nor does the order in
which corrections go through the dictionary (`answers_of_recorded_words`).
-/

namespace SourceIndex

/-! ### Counting -/

/-- A dictionary counts how often each word occurs in a list. -/
structure Dictionary.Counts (d : Dictionary) (words : List Text) : Prop where
  frequency_eq : ∀ word, d.frequency word = words.count word
  size_eq : Set.encard {word | d.frequency word ≠ 0} = d.size
  isEmpty_iff : d.isEmpty = true ↔ ∀ word, d.frequency word = 0

namespace Dictionary

private theorem mem_keys_iff {d : Dictionary} {word : Text} : word ∈ d.counts.keys ↔ d.frequency word ≠ 0 := by
  rw [Std.ExtTreeMap.mem_keys, Std.ExtTreeMap.mem_iff_contains, ← Nat.pos_iff_ne_zero, ← knows_iff]
  rfl

theorem encard_known (d : Dictionary) : Set.encard {word | d.frequency word ≠ 0} = d.size := by
  have hkeys : {word | d.frequency word ≠ 0} = (d.counts.keys.toFinset : Set Text) := by
    ext word
    rw [Set.mem_ofPred_eq, List.coe_toFinset, Set.mem_ofPred_eq, mem_keys_iff]
  rw [hkeys, Set.encard_coe_eq_coe_finsetCard, List.toFinset_card_of_nodup Std.ExtTreeMap.nodup_keys,
    Std.ExtTreeMap.length_keys]
  rfl

theorem isEmpty_iff (d : Dictionary) : d.isEmpty = true ↔ ∀ word, d.frequency word = 0 := by
  have hknown := d.encard_known
  constructor
  · intro hempty word
    rw [eq_of_beq hempty, Nat.cast_zero, Set.encard_eq_zero] at hknown
    by_contra hne
    exact (Set.eq_empty_iff_forall_notMem.mp hknown) word hne
  · intro hzero
    have hnone : {word | d.frequency word ≠ 0} = ∅ := by
      simp [hzero]
    rw [hnone, Set.encard_empty] at hknown
    have hsize : d.size = 0 := by exact_mod_cast hknown.symm
    exact beq_iff_eq.mpr hsize

theorem counts_recordAll (words : List Text) : (empty.recordAll words).Counts words where
  frequency_eq := frequency_recorded
  size_eq := encard_known _
  isEmpty_iff := isEmpty_iff _

theorem recordAll_append (d : Dictionary) (words more : List Text) :
    d.recordAll (words ++ more) = (d.recordAll words).recordAll more := List.foldl_append

theorem recordAll_of_perm (d : Dictionary) {words words' : List Text} (h : words.Perm words') :
    d.recordAll words = d.recordAll words' := by
  ext word
  rw [frequency_recordAll, frequency_recordAll, h.count_eq]

end Dictionary

/-! ### Learning -/

/-- The pieces of a text between its spaces. -/
structure Text.SpacedPieces (t : Text) (pieces : List Text) : Prop where
  ne_nil : pieces ≠ []
  no_space : ∀ piece ∈ pieces, ' ' ∉ piece
  joined : [' '].intercalate pieces = t

namespace Learning

private theorem lowercase_alphanumericOrSpace (t : Text) :
    Text.lowercase (t.map Text.alphanumericOrSpace) = t.map fun c => (Text.alphanumericOrSpace c).toLower := by
  rw [Text.lowercase_of_ascii, List.map_map]
  · rfl
  · intro c hc
    rcases Text.isAlphanum_or_space_of_mem_map hc with halphanum | rfl
    · have hbounds := Text.isAlphanum_bounds halphanum
      omega
    · decide

/-- The pieces are those of the content's start in lowercase, with spaces for all but ASCII letters and digits. -/
theorem spacedPieces_pieces (limit : Nat) (content : Text) :
    Text.SpacedPieces (Text.lowercase ((content.take limit).map Text.alphanumericOrSpace)) (pieces limit content) where
  ne_nil := List.splitOn_ne_nil ' ' _
  no_space piece hpiece hspace := (Text.mem_of_mem_splitOn hpiece hspace).2 rfl
  joined := by rw [lowercase_alphanumericOrSpace, pieces, List.intercalate_splitOn]

end Learning

namespace Session

/-! ### Requests -/

/-- The words a request records, in order. -/
def Request.recorded : Request → List Text
  | .record word times => List.replicate times word
  | .learn content limit => Learning.words limit content
  | _ => []

/-- Whether a request is one that records words. -/
def Request.isRecording : Request → Bool
  | .record _ _ => true
  | .learn _ _ => true
  | _ => false

/-- The words recorded by a sequence of requests, in order. -/
def recorded (requests : List Request) : List Text := requests.flatMap Request.recorded

theorem Request.update_eq_recordAll (d : Dictionary) (request : Request) :
    request.update d = d.recordAll request.recorded := by
  cases request <;> rfl

theorem Request.recorded_of_not_isRecording {request : Request} (h : request.isRecording = false) :
    request.recorded = [] := by
  cases request with
  | record => simp [isRecording] at h
  | learn => simp [isRecording] at h
  | _ => rfl

theorem final_eq_recordAll (d : Dictionary) (requests : List Request) :
    final d requests = d.recordAll (recorded requests) := by
  induction requests generalizing d with
  | nil => rfl
  | cons request rest ih =>
    rw [recorded, List.flatMap_cons, Dictionary.recordAll_append, ← request.update_eq_recordAll]
    exact ih (request.update d)

theorem recorded_filter_isRecording (requests : List Request) :
    recorded (requests.filter Request.isRecording) = recorded requests := by
  induction requests with
  | nil => rfl
  | cons request rest ih =>
    unfold recorded at ih ⊢
    rw [List.flatMap_cons, ← ih]
    cases h : request.isRecording with
    | false => rw [List.filter_cons_of_neg (by simp [h]), Request.recorded_of_not_isRecording h, List.nil_append]
    | true => rw [List.filter_cons_of_pos h, List.flatMap_cons]

theorem final_filter_isRecording (d : Dictionary) (requests : List Request) :
    final d (requests.filter Request.isRecording) = final d requests := by
  rw [final_eq_recordAll, recorded_filter_isRecording, ← final_eq_recordAll]

theorem final_of_perm (d : Dictionary) {requests requests' : List Request}
    (h : (requests.filter Request.isRecording).Perm (requests'.filter Request.isRecording)) :
    final d requests = final d requests' := by
  rw [← final_filter_isRecording d requests, ← final_filter_isRecording d requests', final_eq_recordAll,
    final_eq_recordAll]
  exact d.recordAll_of_perm (h.flatMap_right Request.recorded)

theorem getElem?_run (f : Query.Formatter) (d : Dictionary) (requests : List Request) (i : Nat) :
    (run f d requests)[i]?
      = requests[i]?.map fun request : Request => request.reply f (final d (requests.take (i + 1))) := by
  induction requests generalizing d i with
  | nil => rfl
  | cons request rest ih =>
    cases i with
    | zero => rfl
    | succ i => exact ih (request.update d) i

/-- A session started with no words answers from the words recorded so far: its dictionary counts them, the requests
that record nothing might as well not have been made, and requests that record the same words in any order, with any
others among them, leave a dictionary that answers and corrects the same. -/
theorem answers_of_recorded_words (f : Query.Formatter) :
    (∀ requests, (final .empty requests).Counts (recorded requests)) ∧
      (∀ requests (i : Nat), (run f .empty requests)[i]?
        = requests[i]?.map fun request : Request => request.reply f (final .empty (requests.take (i + 1)))) ∧
      (∀ content limit, ∃ pieces,
        Text.SpacedPieces (Text.lowercase ((content.take limit).map Text.alphanumericOrSpace)) pieces ∧
        (Request.learn content limit).recorded = (pieces.take 10000).filter fun word => 3 ≤ word.length) ∧
      (∀ d requests, final d (requests.filter Request.isRecording) = final d requests) ∧
      ∀ requests requests' : List Request,
        (requests.filter Request.isRecording).Perm (requests'.filter Request.isRecording) →
        let d := final .empty requests
        let d' := final .empty requests'
        (∀ later, run f d later = run f d' later) ∧
          ∀ entries entries', entries.Perm d.counts.toList → entries'.Perm d'.counts.toList →
            (∀ word, d.correctAmong entries word = d'.correctAmong entries' word) ∧
            ∀ query,
              f.alternatives (d.correctAmong entries) query = f.alternatives (d'.correctAmong entries') query := by
  refine ⟨?_, getElem?_run f .empty, ?_, final_filter_isRecording, ?_⟩
  · intro requests
    rw [final_eq_recordAll]
    exact Dictionary.counts_recordAll (recorded requests)
  · intro content limit
    exact ⟨Learning.pieces limit content, Learning.spacedPieces_pieces limit content, rfl⟩
  · intro requests requests' hperm d d'
    have hfinal : d = d' := final_of_perm .empty hperm
    refine ⟨fun later => by rw [hfinal], ?_⟩
    intro entries entries' hentries hentries'
    have hsame : entries.Perm entries' := hentries.trans (hfinal ▸ hentries'.symm)
    have hcorrect : d.correctAmong entries = d'.correctAmong entries' := by
      funext word
      rw [← hfinal, d.correctAmong_of_perm hsame]
    exact ⟨congrFun hcorrect, fun query => by rw [hcorrect]⟩

/-- Two sessions with other requests among them learn the same words the other way round, and correct alike. -/
theorem answers_of_swapped_records :
    let f : Query.Formatter := ⟨Query.escapeTerm, true, 100⟩
    let requests : List Request :=
      [.record "cat".toList 2, .correct "cut".toList, .learn "Cot, cot!".toList 100, .isEmpty]
    let requests' : List Request := [.learn "Cot, cot!".toList 100, .record "cat".toList 2]
    (requests.filter Request.isRecording).Perm (requests'.filter Request.isRecording) ∧
      (∀ later, run f (final .empty requests) later = run f (final .empty requests') later) ∧
      (final .empty requests').frequency "cot".toList = 2 ∧
      (final .empty requests').correct "cut".toList = "cat".toList := by
  intro f requests requests'
  have hperm : (requests.filter Request.isRecording).Perm (requests'.filter Request.isRecording) :=
    List.Perm.swap _ _ _
  obtain ⟨hcounts, -, -, -, hsame⟩ := answers_of_recorded_words f
  refine ⟨hperm, (hsame requests requests' hperm).1, ?_, ?_⟩
  · rw [(hcounts requests').frequency_eq]
    decide +kernel
  · decide +kernel

end Session

end SourceIndex
