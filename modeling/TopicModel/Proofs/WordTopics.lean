import Mathlib
import TopicModel.Proofs.TopicState

/-!
# The topic of a word

`TopicDocument.wordTopics` gives every word of a document the topic that most of its tokens have.
Which tokens are its own is a matter of `Document.tokens`, which spells the entries out one after
the other: `d.origins` is the same expansion with the number of the entry in place of its word, and
`d.positions j` are the places that come from the entry `j`. They are one stretch
(`positions_eq_Ico`), so that the running cut of `wordTopicsOf` takes exactly the topics at them
(`wordTopicsOf_eq`), and every place comes from one entry.

The topic is the least of those with the largest number of tokens (`isLeast_firstLargest`).
-/

namespace TopicModel

/-! ## The first largest entry -/

/-- The largest entry of a list with the first index that has it; zero and zero if there is none. -/
structure LargestOf (bins : List Nat) (best : Nat × Nat) : Prop where
  value_eq : bins.getD best.2 0 = best.1
  le : ∀ k, bins.getD k 0 ≤ best.1
  lt : ∀ k < best.2, bins.getD k 0 < best.1

theorem LargestOf.append {bins : List Nat} {best : Nat × Nat} (h : LargestOf bins best) (n : Nat) :
    LargestOf (bins ++ [n]) (if best.1 < n then (n, bins.length) else best) := by
  have hget : ∀ k, (bins ++ [n]).getD k 0 = if k = bins.length then n else bins.getD k 0 := by
    intro k
    grind
  obtain ⟨hvalue, hle, hlt⟩ := h
  split
  · rename_i hn
    refine ⟨by rw [hget, if_pos rfl], fun k => ?_, fun k hk => ?_⟩
    · rw [hget]
      split
      · exact Nat.le_refl _
      · exact (hle k).trans hn.le
    · rw [hget, if_neg (Nat.ne_of_lt hk)]
      exact (hle k).trans_lt hn
  · rename_i hn
    have hn : n ≤ best.1 := Nat.le_of_not_lt hn
    refine ⟨?_, fun k => ?_, fun k hk => ?_⟩
    · rw [hget]
      split
      · rename_i hlast
        rw [hlast, List.getD_eq_default _ _ (Nat.le_refl _)] at hvalue
        omega
      · exact hvalue
    · rw [hget]
      split
      · exact hn
      · exact hle k
    · rw [hget]
      split
      · rename_i hlast
        have hzero : bins.getD best.2 0 = 0 := List.getD_eq_default _ _ (by omega)
        have hlt := hlt k hk
        omega
      · exact hlt k hk

theorem largestOf_foldl (bins : List Nat) : LargestOf bins
    (bins.zipIdx.foldl (fun best entry => if best.1 < entry.1 then entry else best) (0, 0)) := by
  induction bins using List.reverseRecOn with
  | nil => exact ⟨rfl, fun k => Nat.le_refl _, fun k hk => absurd hk (Nat.not_lt_zero k)⟩
  | append_singleton bins n ih =>
    rw [List.zipIdx_append, List.foldl_append]
    have hnext := ih.append n
    simpa using hnext

/-- The first largest entry is the least of the indices with the largest entry. -/
theorem isLeast_firstLargest (bins : List Nat) :
    IsLeast {k | ∀ j, bins.getD j 0 ≤ bins.getD k 0} (TopicDocument.firstLargest bins) := by
  obtain ⟨hvalue, hle, hlt⟩ := largestOf_foldl bins
  constructor
  · intro j
    exact (hle j).trans_eq hvalue.symm
  · intro k hk
    by_contra hsmall
    have hbelow := hlt k (Nat.lt_of_not_le hsmall)
    rw [← hvalue] at hbelow
    exact absurd (hk _) (Nat.not_le.2 hbelow)

/-! ## Where the tokens of an entry are -/

namespace Document

variable {α : Type} {d : Document} {j n p : Nat}

/-- For every token the number of the entry it comes from: the tokens of the document with its words
numbered. -/
def origins (d : Document) : List Nat :=
  { d with words := List.range d.counts.length }.tokens

/-- The places of the tokens that come from an entry. -/
def positions (d : Document) (j : Nat) : Finset Nat :=
  (Finset.range d.origins.length).filter fun p => d.origins[p]? = some j

/-- The number of tokens before those of an entry. -/
def start (d : Document) (j : Nat) : Nat := (d.counts.take j).sum

/-- Items numbered from `i` and repeated: an item is at the places that its count covers. -/
theorem getElem?_repeated : ∀ {counts : List Nat} {i p j : Nat},
    (((List.range' i counts.length).zip counts).flatMap fun (x, n) => List.replicate n x)[p]? =
      some j ↔ ∃ m n, counts[m]? = some n ∧ j = i + m ∧ (counts.take m).sum ≤ p ∧
        p < (counts.take m).sum + n
  | [], i, p, j => by simp
  | c :: counts, i, p, j => by
    have hsum : ∀ m, ((c :: counts).take (m + 1)).sum = c + (counts.take m).sum := fun m => by
      rw [List.take_succ_cons, List.sum_cons]
    rw [List.length_cons, List.range'_succ, List.zip_cons_cons, List.flatMap_cons]
    dsimp only
    -- a place in the first stretch, or one of the others, counted from its end
    by_cases hp : p < c
    · rw [List.getElem?_append_left (by rwa [List.length_replicate]), List.getElem?_replicate,
        if_pos hp, Option.some.injEq]
      constructor
      · rintro rfl
        exact ⟨0, c, rfl, rfl, Nat.zero_le p, by simpa using hp⟩
      · rintro ⟨m, n, hm, rfl, hlow, hhigh⟩
        cases m with
        | zero => rfl
        | succ m =>
          rw [hsum] at hlow
          omega
    · rw [List.getElem?_append_right (by simpa using hp), List.length_replicate,
        getElem?_repeated]
      constructor
      · rintro ⟨m, n, hm, rfl, hlow, hhigh⟩
        refine ⟨m + 1, n, hm, by omega, ?_, ?_⟩
        · rw [hsum]
          omega
        · rw [hsum]
          omega
      · rintro ⟨m, n, hm, rfl, hlow, hhigh⟩
        cases m with
        | zero =>
          obtain rfl : c = n := Option.some.inj hm
          simp at hhigh
          omega
        | succ m =>
          rw [hsum] at hlow hhigh
          exact ⟨m, n, hm, by omega, by omega, by omega⟩

theorem getElem?_origins : d.origins[p]? = some j ↔
    ∃ n, d.counts[j]? = some n ∧ d.start j ≤ p ∧ p < d.start j + n := by
  have hrange : List.range d.counts.length = List.range' 0 d.counts.length := List.range_eq_range'
  rw [origins, tokens, entries, hrange, getElem?_repeated]
  simp only [Nat.zero_add, start]
  constructor
  · rintro ⟨m, n, hm, rfl, h⟩
    exact ⟨n, hm, h⟩
  · rintro ⟨n, hj, h⟩
    exact ⟨j, n, hj, rfl, h⟩

/-- The tokens of an entry end before those of the document do. -/
theorem start_add_le (h : d.counts[j]? = some n) : d.start j + n ≤ d.tokenCount := by
  have hnext : (d.counts.take (j + 1)).sum = d.start j + n := by
    rw [List.take_add_one, h, List.sum_append, start]
    simp
  rw [tokenCount_eq, ← List.sum_take_add_sum_drop d.counts (j + 1), hnext]
  exact Nat.le_add_right _ _

theorem length_origins (d : Document) : d.origins.length = d.tokenCount := by
  have hlen : d.counts.length = (List.range d.counts.length).length := List.length_range.symm
  rw [origins, tokens, List.length_flatMap, tokenCount_eq]
  simp [entries, List.map_snd_zip (Nat.le_of_eq hlen)]

@[simp] theorem mem_positions : p ∈ d.positions j ↔ d.origins[p]? = some j := by
  rw [positions, Finset.mem_filter, Finset.mem_range, and_iff_right_iff_imp]
  exact fun h => (List.getElem?_eq_some_iff.1 h).1

/-- The places of an entry are one stretch, as long as its count. -/
theorem positions_eq_Ico (h : d.counts[j]? = some n) :
    d.positions j = Finset.Ico (d.start j) (d.start j + n) := by
  ext p
  rw [mem_positions, getElem?_origins, Finset.mem_Ico, h]
  simp

/-- The tokens are the words of the entries that they come from. -/
theorem tokens_eq_map_origins (h : d.words.length = d.counts.length) :
    d.tokens = d.origins.map fun i => d.words.getD i 0 := by
  have hwords : d.words = (List.range d.counts.length).map fun i => d.words.getD i 0 := by
    apply List.ext_getElem?
    intro i
    rw [← h, List.getElem?_map]
    grind
  calc d.tokens = (((List.range d.counts.length).map fun i => d.words.getD i 0).zip
          d.counts).flatMap fun (word, count) => List.replicate count word := by
        rw [← hwords]; rfl
    _ = d.origins.map fun i => d.words.getD i 0 := by
        simp only [origins, tokens, entries, List.zip_map_left, List.flatMap_map, List.map_flatMap,
          List.map_replicate, Prod.map_fst, Prod.map_snd, id_eq]

/-- At every place stands the word of the entry that it comes from. -/
theorem getElem?_tokens (h : d.words.length = d.counts.length) (hp : p ∈ d.positions j) :
    d.tokens[p]? = d.words[j]? := by
  rw [tokens_eq_map_origins h, List.getElem?_map, mem_positions.1 hp]
  obtain ⟨n, hn, -⟩ := getElem?_origins.1 (mem_positions.1 hp)
  have hj : j < d.words.length := h ▸ (List.getElem?_eq_some_iff.1 hn).1
  rw [Option.map_some, List.getElem?_eq_getElem hj, List.getD_eq_getElem _ _ hj]

end Document

/-! ## The topics of an entry's tokens -/

namespace TopicDocument

variable {α : Type} {d : TopicDocument} {j k n : Nat}

/-- The number of tokens with a topic among those that come from an entry. -/
def occurrences (d : TopicDocument) (j k : Nat) : Nat :=
  ((d.document.positions j).filter fun p => d.topics.assignment[p]? = some k).card

theorem card_filter_Ico (l : List Nat) (a k : Nat) : ∀ n,
    ((Finset.Ico a (a + n)).filter fun p => l[p]? = some k).card = ((l.drop a).take n).count k
  | 0 => by simp
  | n + 1 => by
    have ih := card_filter_Ico l a k n
    rw [Finset.card_filter] at ih ⊢
    rw [← Nat.add_assoc, Finset.sum_Ico_succ_top (Nat.le_add_right a n), ih, List.take_add_one,
      List.count_append, List.getElem?_drop]
    cases l[a + n]? with
    | none => simp
    | some x => simp [List.count_singleton]

/-- Stretches of topics that cover the counts each give their word a topic. -/
theorem wordTopicsOf_eq {K : Nat} : ∀ (es : List (Nat × Nat)) (l : List Nat),
    (es.map Prod.snd).sum ≤ l.length → (∀ k ∈ l, k < K) →
    ∃ pairs, wordTopicsOf K es l = some pairs ∧ pairs.map Prod.fst = es.map Prod.fst ∧
      ∀ j n, (es.map Prod.snd)[j]? = some n → (pairs.map Prod.snd)[j]? =
        some (firstLargest (binCounts K ((l.drop ((es.map Prod.snd).take j).sum).take n)))
  | [], l, _, _ => ⟨[], rfl, rfl, fun j n h => by simp at h⟩
  | (word, c) :: es, l, hlen, hlt => by
    rw [List.map_cons, List.sum_cons] at hlen
    have hown : (l.take c).length = c := List.length_take_of_le (by omega)
    have hbins : binCounts? K (l.take c) = some (binCounts K (l.take c)) := by
      have hall : (l.take c).all (· < K) = true := by
        simpa using fun k hk => hlt k (List.mem_of_mem_take hk)
      rw [binCounts?, if_pos hall]
    have hrest : (es.map Prod.snd).sum ≤ (l.drop c).length := by
      rw [List.length_drop]
      omega
    obtain ⟨pairs, hpairs, hwords, htopics⟩ :=
      wordTopicsOf_eq es (l.drop c) hrest fun k hk => hlt k (List.mem_of_mem_drop hk)
    refine ⟨(word, firstLargest (binCounts K (l.take c))) :: pairs, ?_, ?_, fun j n hj => ?_⟩
    · simp [wordTopicsOf, hown, hbins, hpairs]
    · rw [List.map_cons, List.map_cons, hwords]
    · cases j with
      | zero =>
        obtain rfl : c = n := Option.some.inj hj
        simp
      | succ j =>
        have hrest := htopics j n hj
        rw [List.drop_drop] at hrest
        simpa using hrest

/-- The topics of an entry's tokens are the stretch of the assignment that its count covers. -/
theorem occurrences_eq_count (h : d.document.counts[j]? = some n) : d.occurrences j k =
    ((d.topics.assignment.drop (d.document.start j)).take n).count k := by
  rw [occurrences, Document.positions_eq_Ico h, card_filter_Ico]

theorem getD_binCounts {K : Nat} {l : List Nat} (h : ∀ i ∈ l, i < K) :
    (binCounts K l).getD k 0 = l.count k := by
  rw [List.getD_eq_getElem?_getD, getElem?_binCounts]
  split
  · rfl
  · rename_i hk
    exact (List.count_eq_zero.2 fun hmem => hk (h k hmem)).symm

/-- The topic that a word is given: the least of those that most of its tokens have, a topic in
range if the word has a token and zero otherwise. -/
structure Chosen (d : TopicDocument) (j t : Nat) : Prop where
  isLeast : IsLeast {k | ∀ k', d.occurrences j k' ≤ d.occurrences j k} t
  lt : d.document.counts[j]? ≠ some 0 → t < d.topics.counts.length
  eq_zero : d.document.counts[j]? = some 0 → t = 0

theorem chosen_firstLargest (h : d.document.counts[j]? = some n)
    (hfit : d.document.start j + n ≤ d.topics.assignment.length)
    (hlt : ∀ k ∈ d.topics.assignment, k < d.topics.counts.length) :
    d.Chosen j (firstLargest (binCounts d.topics.counts.length
      ((d.topics.assignment.drop (d.document.start j)).take n))) := by
  set own := (d.topics.assignment.drop (d.document.start j)).take n with hown
  have hocc : ∀ k, d.occurrences j k =
      (binCounts d.topics.counts.length own).getD k 0 := fun k => by
    rw [occurrences_eq_count h, getD_binCounts fun i hi =>
      hlt i (List.mem_of_mem_drop (List.mem_of_mem_take hi))]
  have hleast := isLeast_firstLargest (binCounts d.topics.counts.length own)
  simp only [← hocc] at hleast
  refine ⟨hleast, fun hn => ?_, fun hn => ?_⟩
  · -- some token has a topic, so the most frequent one has a token
    have hlen : own.length = n := by
      rw [hown, List.length_take_of_le]
      rw [List.length_drop]
      omega
    have hpos : 0 < own.length := by
      rw [hlen]
      exact Nat.pos_of_ne_zero fun h0 => hn (h0 ▸ h)
    have hhead : 0 < d.occurrences j own[0] := by
      rw [occurrences_eq_count h, List.count_pos_iff]
      exact List.getElem_mem hpos
    have hmost := hhead.trans_le (hleast.1 own[0])
    rw [occurrences_eq_count h, List.count_pos_iff] at hmost
    exact hlt _ (List.mem_of_mem_drop (List.mem_of_mem_take hmost))
  · rw [h, Option.some.injEq] at hn
    subst hn
    refine Nat.le_zero.1 (hleast.2 fun k => ?_)
    rw [occurrences_eq_count h, occurrences_eq_count h]
    simp

/-- The pairs that a document with a correct state gives: a topic for every word. -/
theorem wordTopics_eq [Arithmetic] (h : d.document.words.length = d.document.counts.length)
    (hok : d.topics.check (α := α) d.document d.topics.counts.length = .ok ()) :
    ∃ pairs, d.wordTopics (α := α) = .ok pairs ∧ pairs.map Prod.fst = d.document.words ∧
      ∀ j t, (pairs.map Prod.snd)[j]? = some t → d.Chosen j t := by
  obtain ⟨-, hlen, -, -, hlt⟩ := TopicState.check_ok_iff.1 hok
  have hcounts : d.document.entries.map Prod.snd = d.document.counts :=
    List.map_snd_zip (Nat.le_of_eq h.symm)
  have hsum : (d.document.entries.map Prod.snd).sum ≤ d.topics.assignment.length := by
    rw [hcounts, hlen, Document.tokenCount_eq]
  obtain ⟨pairs, hpairs, hwords, htopics⟩ := wordTopicsOf_eq _ _ hsum hlt
  rw [Document.entries, List.map_fst_zip (Nat.le_of_eq h)] at hwords
  rw [hcounts] at htopics
  refine ⟨pairs, ?_, hwords, fun j t ht => ?_⟩
  · simp [wordTopics, hok, hpairs, Outcome.ofOption]
  · have hj : j < d.document.counts.length := by
      have hlength := congrArg List.length hwords
      rw [List.length_map] at hlength
      have hlt := (List.getElem?_eq_some_iff.1 ht).1
      rw [List.length_map] at hlt
      omega
    have hn := List.getElem?_eq_getElem hj
    rw [htopics j _ hn, Option.some.injEq] at ht
    rw [← ht]
    refine chosen_firstLargest hn ?_ hlt
    rw [hlen]
    exact Document.start_add_le hn

/-- For every document with as many counts as words: the topics of its words fail exactly as the
check of its topic state does, with no access out of range. Otherwise every word has one pair, in
order, with the least of the topics that most of its tokens have. The tokens of an entry are where
`tokens` spells the entry out, a stretch as long as its count, and every token is of one entry. -/
theorem wordTopics_most_frequent [Arithmetic] (d : TopicDocument)
    (h : d.document.words.length = d.document.counts.length) :
    (∀ e, d.wordTopics (α := α) = .error e ↔
      ∃ cause, d.topics.check d.document d.topics.counts.length = .error cause ∧
        e = .error cause) ∧
    (d.topics.check (α := α) d.document d.topics.counts.length = .ok () →
      (∃ pairs, d.wordTopics (α := α) = .ok pairs ∧ pairs.map Prod.fst = d.document.words ∧
        ∀ j t, (pairs.map Prod.snd)[j]? = some t → d.Chosen j t) ∧
      (∀ p < d.topics.assignment.length, ∃! j, p ∈ d.document.positions j) ∧
      (∀ j, ∀ p ∈ d.document.positions j, p < d.topics.assignment.length ∧
        d.document.tokens[p]? = d.document.words[j]?) ∧
      ∀ j n, d.document.counts[j]? = some n →
        d.document.positions j = Finset.Ico (d.document.start j) (d.document.start j + n) ∧
        d.document.start j + n ≤ d.topics.assignment.length) := by
  constructor
  · intro e
    cases hcheck : d.topics.check (α := α) d.document d.topics.counts.length with
    | error cause => simp [wordTopics, hcheck, Outcome.ofCheck, eq_comm]
    | ok u =>
      obtain ⟨pairs, hpairs, -⟩ := wordTopics_eq h hcheck
      simp [hpairs]
  · intro hok
    have hlen : d.topics.assignment.length = d.document.origins.length := by
      rw [Document.length_origins]
      exact (TopicState.check_ok_iff.1 hok).2.1
    refine ⟨wordTopics_eq h hok, fun p hp => ?_, fun j p hp => ⟨?_, ?_⟩, fun j n hn => ⟨?_, ?_⟩⟩
    · rw [hlen] at hp
      refine ⟨d.document.origins[p], ?_, fun j hj => ?_⟩
      · exact Document.mem_positions.2 (List.getElem?_eq_getElem hp)
      · have horigin := Document.mem_positions.1 hj
        rw [List.getElem?_eq_getElem hp] at horigin
        exact (Option.some.inj horigin).symm
    · rw [hlen]
      exact (List.getElem?_eq_some_iff.1 (Document.mem_positions.1 hp)).1
    · exact Document.getElem?_tokens h hp
    · exact Document.positions_eq_Ico hn
    · rw [hlen, Document.length_origins]
      exact Document.start_add_le hn

/-- Two tokens of the first word with two topics, none of the second and two of the third. -/
theorem wordTopics_most_frequent_three_words :
    let d : TopicDocument := ⟨⟨0, [3, 8, 5], [2, 0, 2]⟩, 4, ⟨[1, 1, 2], [1, 0, 2, 2]⟩⟩
    d.document.words.length = d.document.counts.length ∧
    d.wordTopics (α := Rat) = .ok [(3, 0), (8, 0), (5, 2)] ∧
    (∃ pairs, d.wordTopics (α := Rat) = .ok pairs ∧ pairs.map Prod.fst = d.document.words ∧
      ∀ j t, (pairs.map Prod.snd)[j]? = some t → d.Chosen j t) ∧
    d.document.positions 2 = Finset.Ico 2 4 := by
  intro d
  have hcheck : d.topics.check (α := Rat) d.document d.topics.counts.length = .ok () := by
    decide +kernel
  have hmost := (wordTopics_most_frequent (α := Rat) d rfl).2 hcheck
  exact ⟨rfl, by decide +kernel, hmost.1, (hmost.2.2.2 2 2 rfl).1⟩

end TopicDocument

end TopicModel
