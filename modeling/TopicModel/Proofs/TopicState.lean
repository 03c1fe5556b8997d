import Mathlib
import TopicModel.Proofs.Counts
import TopicModel.TopicState

/-!
# Documents and their topic states

A checked document has as many tokens as it announces, all in the vocabulary (`length_tokens`,
`lt_of_mem_tokens`).

`s.Fits d K`: the state `s` gives each token of the document `d` one of `K` topics, and its counts
are the numbers of tokens of each topic (`histogram`), which have room. Such a state passes
`TopicState.check` (`Fits.check`), and the counts follow when a token leaves a topic or joins one
(`modify_histogram_cons`, `modify_histogram`).
-/

namespace TopicModel

/-! ## Documents -/

namespace Document

variable {α : Type} {d : Document} {V : Nat}

theorem checkEntries_ok_iff {id : Int} : ∀ {es : List (Nat × Nat)},
    checkEntries (α := α) id V es = .ok () ↔ ∀ e ∈ es, e.1 < V ∧ 0 < e.2
  | [] => by simp [checkEntries]
  | (word, count) :: es => by
    rw [checkEntries]
    split
    · rename_i h
      simp only [reduceCtorEq, List.forall_mem_cons, false_iff]
      omega
    · split
      · rename_i h
        simp [h]
      · rename_i h1 h2
        rw [checkEntries_ok_iff, List.forall_mem_cons]
        exact ⟨fun h => ⟨⟨by omega, by omega⟩, h⟩, fun h => h.2⟩

theorem checkWords_ok_iff : d.checkWords (α := α) V = .ok () ↔
    d.words.length = d.counts.length ∧ ∀ e ∈ d.entries, e.1 < V ∧ 0 < e.2 := by
  rw [checkWords]
  split
  · rename_i h
    simp [h]
  · rename_i h
    rw [checkEntries_ok_iff]
    simp [not_not.1 h]

theorem tokenCount_eq (d : Document) : d.tokenCount = d.counts.sum := List.sum_eq_foldr.symm

/-- A checked document without tokens has no words. -/
theorem entries_eq_nil (h : d.checkWords (α := α) V = .ok ()) (hempty : d.isEmpty = true) :
    d.entries = [] := by
  have hzero : d.counts.sum = 0 := by simpa [isEmpty, tokenCount_eq] using hempty
  refine List.eq_nil_iff_forall_not_mem.2 fun x hx => ?_
  have hpos := ((checkWords_ok_iff.1 h).2 x hx).2
  have hle : x.2 ≤ d.counts.sum := List.le_sum_of_mem (List.of_mem_zip hx).2
  omega

theorem length_tokens (h : d.checkWords (α := α) V = .ok ()) :
    d.tokens.length = d.tokenCount := by
  have hlen := (checkWords_ok_iff.1 h).1
  calc d.tokens.length = (d.entries.map Prod.snd).sum := by
        rw [tokens, List.length_flatMap]; simp
    _ = d.tokenCount := by
        rw [entries, List.map_snd_zip (Nat.le_of_eq hlen.symm), tokenCount_eq]

theorem lt_of_mem_tokens (h : d.checkWords (α := α) V = .ok ()) : ∀ w ∈ d.tokens, w < V := by
  intro w hw
  obtain ⟨⟨word, count⟩, he, hw⟩ := List.mem_flatMap.1 hw
  rw [List.eq_of_mem_replicate hw]
  exact ((checkWords_ok_iff.1 h).2 _ he).1

/-- Every word of a checked document has a token. -/
theorem mem_tokens (h : d.checkWords (α := α) V = .ok ()) {w : Nat} :
    w ∈ d.tokens ↔ w ∈ d.words := by
  obtain ⟨hlen, hes⟩ := checkWords_ok_iff.1 h
  rw [tokens, List.mem_flatMap]
  constructor
  · rintro ⟨⟨word, count⟩, he, hw⟩
    rw [List.eq_of_mem_replicate hw]
    exact (List.of_mem_zip he).1
  · intro hw
    rw [← List.map_fst_zip (Nat.le_of_eq hlen)] at hw
    obtain ⟨⟨word, count⟩, he, rfl⟩ := List.mem_map.1 hw
    exact ⟨_, he, List.mem_replicate.2 ⟨(hes _ he).2.ne', rfl⟩⟩

/-- The tokens of a document, each with its topic. -/
def assigned (d : Document) (assignment : List Nat) : List (Nat × Nat) := d.tokens.zip assignment

theorem within_assigned {K : Nat} {assignment : List Nat} (h : d.checkWords (α := α) V = .ok ())
    (ha : ∀ k ∈ assignment, k < K) : Counts.Within V K (d.assigned assignment) := by
  intro x hx
  have hmem := List.of_mem_zip (show (x.1, x.2) ∈ _ from hx)
  exact ⟨lt_of_mem_tokens h _ hmem.1, ha _ hmem.2⟩

theorem length_assigned {assignment : List Nat} (h : d.checkWords (α := α) V = .ok ())
    (ha : assignment.length = d.tokenCount) :
    (d.assigned assignment).length = d.tokens.length := by
  rw [assigned, List.length_zip, length_tokens h, ha, Nat.min_self]

theorem map_fst_assigned {assignment : List Nat} (h : d.checkWords (α := α) V = .ok ())
    (ha : assignment.length = d.tokenCount) : (d.assigned assignment).map Prod.fst = d.tokens :=
  List.map_fst_zip (by rw [length_tokens h, ha])

end Document

/-! ## Numbers of tokens by topic -/

/-- How many of the given topics are each of `0, …, K - 1`. -/
def histogram (K : Nat) (topics : List Nat) : List Int :=
  (List.range K).map fun k => (topics.count k : Int)

section
variable {K k : Nat} {topics topics' : List Nat}

@[simp] theorem length_histogram : (histogram K topics).length = K := by simp [histogram]

theorem getElem?_histogram :
    (histogram K topics)[k]? = if k < K then some (topics.count k : Int) else none := by
  rw [histogram, List.getElem?_map]
  by_cases h : k < K
  · rw [List.getElem?_range h, if_pos h]; rfl
  · rw [List.getElem?_eq_none (by simpa using h), if_neg h]; rfl

theorem histogram_perm (h : topics.Perm topics') : histogram K topics = histogram K topics' :=
  List.map_congr_left fun k _ => by rw [h.count_eq]

theorem nonneg_of_mem_histogram {n : Int} (h : n ∈ histogram K topics) : 0 ≤ n := by
  obtain ⟨k, -, rfl⟩ := List.mem_map.1 h
  exact Int.natCast_nonneg _

/-- Counts that differ by `n` in one place. -/
theorem modify_eq_histogram {n : Int}
    (h : ∀ j, (topics'.count j : Int) = topics.count j + if j = k then n else 0) :
    (histogram K topics).modify k (· + n) = histogram K topics' := by
  apply List.ext_getElem?
  intro j
  rw [List.getElem?_modify, getElem?_histogram, getElem?_histogram, h j]
  by_cases hj : j < K
  · grind
  · rw [if_neg hj, if_neg hj]; rfl

theorem stored_histogram [Arithmetic] (hroom : Arithmetic.HasRoom topics.length) :
    Arithmetic.Stored (histogram K topics) := by
  intro n hn
  obtain ⟨k, -, rfl⟩ := List.mem_map.1 hn
  exact hroom.mono List.count_le_length

/-- A token leaves its topic. -/
theorem modify_histogram_cons [Arithmetic] (hroom : Arithmetic.HasRoom topics.length) :
    (histogram K (k :: topics)).modify k (fun n => Arithmetic.signed (n - 1)) =
      histogram K topics := by
  have hleft : (histogram K (k :: topics)).modify k (· - 1) = histogram K topics :=
    modify_eq_histogram (n := -1) fun j => by rw [Counts.natCast_count_cons]; grind
  rw [Arithmetic.modify_signed (f := (· - 1)) (hleft ▸ stored_histogram hroom), hleft]

/-- A token joins a topic. -/
theorem modify_histogram [Arithmetic] (hroom : Arithmetic.HasRoom (topics.length + 1)) :
    (histogram K topics).modify k (fun n => Arithmetic.signed (n + 1)) =
      histogram K (k :: topics) := by
  have hjoined : (histogram K topics).modify k (· + 1) = histogram K (k :: topics) :=
    modify_eq_histogram (Counts.natCast_count_cons k · topics)
  rw [Arithmetic.modify_signed (f := (· + 1)) (hjoined ▸ stored_histogram hroom), hjoined]

theorem sum_histogram (h : ∀ k ∈ topics, k < K) : (histogram K topics).sum = topics.length := by
  have hsum := Counts.sum_countP_fiber id (fun _ => true) K topics h
  rw [List.countP_true] at hsum
  rw [← hsum, histogram]
  refine congrArg List.sum (List.map_congr_left fun k _ => ?_)
  rw [List.count]
  congr 2
  funext x
  rw [Bool.and_true]; rfl

theorem binCounts_eq_histogram : (binCounts K topics).map Int.ofNat = histogram K topics := by
  apply List.ext_getElem?
  intro k
  rw [List.getElem?_map, getElem?_binCounts, getElem?_histogram]
  split <;> rfl

end

/-! ## Topic states -/

namespace TopicState

variable {α : Type} {s : TopicState} {d : Document} {K : Nat}

/-- The state gives every token of the document one of `K` topics and counts them, and there is room
for their number. -/
structure Fits [Arithmetic] (s : TopicState) (d : Document) (K : Nat) : Prop where
  hasRoom : Arithmetic.HasRoom d.tokenCount
  length_eq : s.assignment.length = d.tokenCount
  topic_lt : ∀ k ∈ s.assignment, k < K
  counts_eq : s.counts = histogram K s.assignment

theorem fits_empty [Arithmetic] (h : d.tokenCount = 0) : (empty K).Fits d K where
  hasRoom := by rw [h]; exact Arithmetic.signed_zero
  length_eq := h.symm
  topic_lt := by simp [empty]
  counts_eq := by simp [empty, histogram, List.map_const']

theorem Fits.eq_empty [Arithmetic] (h : s.Fits d K) (hd : d.tokenCount = 0) : s = empty K := by
  obtain ⟨-, hlen, -, hcounts⟩ := h
  obtain ⟨counts, assignment⟩ := s
  obtain rfl : assignment = [] := List.length_eq_zero_iff.1 (hlen.trans hd)
  simpa [empty, histogram, List.map_const'] using hcounts

/-- The state of an assignment whose topics are in range. -/
theorem ofAssignment?_eq {assignment : List Nat} (h : ∀ k ∈ assignment, k < K) :
    ofAssignment? assignment K = some ⟨histogram K assignment, assignment⟩ := by
  have hall : assignment.all (· < K) = true := by simpa using h
  rw [ofAssignment?, binCounts?, if_pos hall, Option.map_some, binCounts_eq_histogram]

theorem find?_eq_none_iff {assignment : List Nat} :
    assignment.find? (K ≤ ·) = none ↔ ∀ k ∈ assignment, k < K := by
  simp [List.find?_eq_none]

/-- What the check of a state asks for, in any arithmetic. -/
theorem check_ok_iff [Arithmetic] : s.check (α := α) d K = .ok () ↔ s.counts.length = K ∧
    s.assignment.length = d.tokenCount ∧
    Arithmetic.sum s.counts = Arithmetic.signed d.tokenCount ∧ (∀ n ∈ s.counts, 0 ≤ n) ∧
    ∀ k ∈ s.assignment, k < K := by
  have hany : s.counts.any (· < 0) = false ↔ ∀ n ∈ s.counts, 0 ≤ n := by
    simp [List.any_eq_false]
  rw [← hany, ← find?_eq_none_iff, TopicState.check]
  by_cases hlen : s.counts.length = K
  · by_cases hass : s.assignment.length = d.tokenCount
    · by_cases hsum : Arithmetic.sum s.counts = Arithmetic.signed d.tokenCount
      · cases hneg : s.counts.any (· < 0) <;> cases s.assignment.find? (K ≤ ·) <;>
          simp [hlen, hass, hsum]
      · simp [hlen, hass, hsum]
    · simp [hlen, hass]
  · simp [hlen]

/-- The numbers that the check of a state compares have room. -/
def HasRoom [Arithmetic] (s : TopicState) (d : Document) : Prop :=
  Arithmetic.signed s.counts.sum = s.counts.sum ∧ Arithmetic.HasRoom d.tokenCount

instance [Arithmetic] (s : TopicState) (d : Document) : Decidable (s.HasRoom d) :=
  inferInstanceAs (Decidable (_ ∧ _))

/-- Then the counts of a state that passes it do sum to the number of tokens. -/
theorem HasRoom.sum_eq [Arithmetic] (hroom : s.HasRoom d)
    (h : s.check (α := α) d K = .ok ()) : s.counts.sum = d.tokenCount := by
  obtain ⟨-, -, hsum, -⟩ := check_ok_iff.1 h
  rwa [Arithmetic.sum_eq, hroom.1, hroom.2] at hsum

theorem Fits.length_counts [Arithmetic] (h : s.Fits d K) : s.counts.length = K := by
  rw [h.counts_eq, length_histogram]

/-- A state that fits its document passes the check. -/
theorem Fits.check [Arithmetic] (h : s.Fits d K) : s.check (α := α) d K = .ok () := by
  refine check_ok_iff.2 ⟨h.length_counts, h.length_eq, ?_, fun n hn => ?_, h.topic_lt⟩
  · rw [Arithmetic.sum_eq, h.counts_eq, sum_histogram h.topic_lt, h.length_eq]
  · rw [h.counts_eq] at hn
    exact nonneg_of_mem_histogram hn

/-- A state that fits its document over `K` topics passes the check over no other number. -/
theorem Fits.topicNum_eq [Arithmetic] {L : Nat} (h : s.Fits d K)
    (hc : s.check (α := α) d L = .ok ()) : K = L :=
  h.length_counts.symm.trans (check_ok_iff.1 hc).1

end TopicState

end TopicModel
