import Mathlib
import TopicModel.Double
import TopicModel.Proofs.Faults
import TopicModel.Proofs.Prediction

/-!
# What a failed sample leaves behind

A check refuses a document before anything is touched. After that a document fails between the two
halves of a move: its token was taken out of the counts of the model and not put back, whatever the
moves before it were. So the counts then hold all tokens of the document but one, each with some
topic (`Counts.HoldsRest`): `sweepTokens_failed` and `sweepDocument_failed` carry what
`resampleToken_failed` says of one token through the passes.

`sample_failure` is what a caller can tell from the counts before and after: nothing changes unless
a weight was degenerate, and then in training one token of the named word is gone
(`Counts.LostToken`).
-/

namespace TopicModel

open Arithmetic (modulus signed)

section
variable [Arithmetic]

/-! ## Counts that lack a token -/

namespace Counts

/-- The total of a topic less the sum of its counts. -/
def discrepancy (c : Counts) (topic : Nat) : Option Int := do
  let total ← c.total? topic
  let entries ← c.column? topic
  return signed (total - Arithmetic.sum entries)

/-- Counts `c'` hold one token of `word` less than `c`, of some topic. -/
structure LostToken (c c' : Counts) (word : Nat) : Prop where
  word_lt : word < c.vocSize
  vocSize_eq : c'.vocSize = c.vocSize
  topicNum_eq : c'.topicNum = c.topicNum
  row_sum : (c'.row? word).map Arithmetic.sum =
    (c.row? word).map fun row => signed (Arithmetic.sum row - 1)
  other_row_sum : ∀ w < c.vocSize, w ≠ word →
    (c'.row? w).map Arithmetic.sum = (c.row? w).map Arithmetic.sum
  tokenCount : c'.tokenCount = signed (c.tokenCount - 1)
  discrepancy : ∀ topic, c'.discrepancy topic = c.discrepancy topic
  isConsistent : c'.isConsistent = c.isConsistent

variable {c c' base : Counts} {word : Nat} {tokens rest : List (Nat × Nat)}

theorem discrepancy_eq {k : Nat} (h : k < c.topicNum) : c.discrepancy k = some (signed
    (c.value c.vocSize k - ((List.range c.vocSize).map fun w => c.value w k).sum)) := by
  rw [Counts.discrepancy, total?_eq h, column?_eq h]
  show some (signed (_ - Arithmetic.sum _)) = _
  rw [Arithmetic.sum_eq, Arithmetic.signed_sub_right]

/-- Tokens on top of counts enter a total and the sum below it alike. -/
theorem Extends.discrepancy (h : c.Extends base tokens)
    (hin : Within base.vocSize base.topicNum tokens) (k : Nat) :
    c.discrepancy k = base.discrepancy k := by
  by_cases hk : k < base.topicNum
  · have hk' : k < c.topicNum := h.topicNum_eq.symm ▸ hk
    rw [discrepancy_eq hk, discrepancy_eq hk', h.vocSize_eq, Option.some.injEq,
      Arithmetic.signed_eq_signed_iff]
    refine ((h.total_modEq k hk).sub (h.column_sum hin hk)).trans ?_
    rw [add_sub_add_right_eq_sub]
  · have hk' : ¬ k < c.topicNum := h.topicNum_eq.symm ▸ hk
    have hnone : ∀ {d : Counts}, ¬ k < d.topicNum → d.discrepancy k = none := fun {d} hd => by
      have htotal : d.total? k = none := if_neg fun hr => hd hr.2
      rw [Counts.discrepancy, htotal]
      rfl
    rw [hnone hk, hnone hk']

/-- The words on top of the same counts differ by one. -/
theorem Extends.lostToken (h : c.Extends base tokens) (h' : c'.Extends base rest)
    (hc : c.Stored) (hc' : c'.Stored) (hbase : base.Stored)
    (hin : Within base.vocSize base.topicNum tokens) (hin' : Within base.vocSize base.topicNum rest)
    (hwords : (word :: rest.map Prod.fst).Perm (tokens.map Prod.fst)) : c.LostToken c' word := by
  have hV := h'.vocSize_eq.trans h.vocSize_eq.symm
  have hlt : word < base.vocSize := by
    obtain ⟨x, hx, rfl⟩ := List.mem_map.1 (hwords.mem_iff.1 List.mem_cons_self)
    exact (hin x hx).1
  have hcount : ∀ w, ((tokens.map Prod.fst).count w : Int) =
      (rest.map Prod.fst).count w + if w = word then 1 else 0 := by
    intro w
    rw [← hwords.count_eq, natCast_count_cons]
  have hrow : ∀ w < base.vocSize, (c'.row? w).map Arithmetic.sum =
      (c.row? w).map fun row => signed (Arithmetic.sum row - if w = word then 1 else 0) := by
    intro w hw
    obtain ⟨row, hrow⟩ : ∃ row, c.row? w = some row :=
      ⟨_, row?_eq (by rw [h.vocSize_eq]; exact hw.le)⟩
    have hsum := h.row_sum hin hw
    rw [row?_eq (Nat.le_of_lt hw), hrow, Option.map_some, Option.map_some,
      Option.some.injEq] at hsum
    rw [h'.row_sum hin' hw, row?_eq (Nat.le_of_lt hw), hrow, Option.map_some, Option.map_some,
      Option.some.injEq, hsum, Arithmetic.signed_sub_left, hcount w, ← add_assoc,
      add_sub_cancel_right]
  have hlen : tokens.length = rest.length + 1 := by
    simpa using hwords.length_eq.symm
  constructor
  case word_lt => rwa [h.vocSize_eq]
  case vocSize_eq => exact hV
  case topicNum_eq => exact h'.topicNum_eq.trans h.topicNum_eq.symm
  case row_sum => simpa using hrow word hlt
  case other_row_sum =>
    intro w hw hne
    rw [h.vocSize_eq] at hw
    have hsame : ∀ row : List Int, signed (Arithmetic.sum row) = Arithmetic.sum row := fun row => by
      rw [Arithmetic.sum_eq, Arithmetic.signed_signed]
    simpa [hne, hsame] using hrow w hw
  case tokenCount =>
    rw [h'.tokenCount hin', h.tokenCount hin, hlen, Arithmetic.signed_sub_left, Nat.cast_add,
      Nat.cast_one, ← add_assoc, add_sub_cancel_right]
  case discrepancy =>
    intro k
    rw [h'.discrepancy hin', h.discrepancy hin]
  case isConsistent => rw [h'.isConsistent hin' hc' hbase, h.isConsistent hin hc hbase]

/-- The failure names one of the words, and on top of `base` the counts hold tokens of exactly the
others. -/
def HoldsRest {α : Type} (base : Counts) (words : List Nat) (e : Failure α) (c : Counts) : Prop :=
  ∃ word topic weight rest, e = .error (.degenerateWeights word topic weight) ∧
    (word :: rest.map Prod.fst).Perm words ∧ Within base.vocSize base.topicNum rest ∧
    c.Extends base rest

theorem HoldsRest.perm {α : Type} {words words' : List Nat} {e : Failure α}
    (h : HoldsRest base words e c) (hp : words.Perm words') : HoldsRest base words' e c := by
  obtain ⟨word, topic, weight, rest, he, hwords, hin, hext⟩ := h
  exact ⟨word, topic, weight, rest, he, hwords.trans hp, hin, hext⟩

end Counts

open Counts

variable {α γ : Type} [Scalar α] [Generator γ] {o : Options α} {mode : SampleMode} {e : Failure α}
  {sweeps word topic : Nat} {weight : α} {c c' base : Counts} {g g' : γ}

/-! ## Passes -/

/-- A pass that fails leaves the tokens before the failing one with their new topics, those after
it with their old ones, and that one nowhere. -/
theorem sweepTokens_failed (hV : base.vocSize = o.vocSize) (hK : base.topicNum = o.topicNum) :
    ∀ {tokens topics : List Nat} {others : List (Nat × Nat)} {tc : List Int} {c c' : Counts}
    {g g' : γ}, tokens.length = topics.length →
    Within base.vocSize base.topicNum (tokens.zip topics ++ others) → tc.length = o.topicNum →
    c.Extends base (tokens.zip topics ++ others) →
    sweepTokens o .train tokens topics tc c g = (.error e, c', g') →
    HoldsRest base (tokens ++ others.map Prod.fst) e c'
  | [], [], _, _, _, _, _, _, _, _, _, _, h => by cases h
  | word :: tokens, old :: topics, others, tc, c, c', g, g', hlen, hin, htc, hext, h => by
    obtain ⟨⟨hword, hold⟩, hin⟩ : (word < base.vocSize ∧ old < base.topicNum) ∧
        Within base.vocSize base.topicNum (tokens.zip topics ++ others) :=
      List.forall_mem_cons.1 hin
    have hout : (c.decrement word old).Extends base (tokens.zip topics ++ others) :=
      hext.decrement hword hold
    rcases sweepTokens_cons_error h with hone | ⟨new, tc₁, c₁, g₁, hone, hrest⟩
    · -- the token is out, and the others are where they were
      obtain ⟨rfl, -, topic, weight, he⟩ := resampleToken_failed (hV ▸ hword)
        (hext.vocSize_eq.trans hV) (hext.topicNum_eq.trans hK) htc (hK ▸ hold) hone
      refine ⟨word, topic, weight, _, he, ?_, hin, hout⟩
      rw [List.map_append, List.map_fst_zip (Nat.succ.inj hlen).le]
      exact List.Perm.refl _
    · -- the token is in its new topic, and counts as one of the others from here on
      obtain ⟨hnew, rfl, rfl, -⟩ := resampleToken_ok hone
      have hnew : new < base.topicNum := by omega
      have hin' : ((c.decrement word old).increment word new).Extends base
          (tokens.zip topics ++ (word, new) :: others) :=
        (hout.increment hword hnew).perm List.perm_middle.symm
      have hwithin : Within base.vocSize base.topicNum
          (tokens.zip topics ++ (word, new) :: others) := fun x hx =>
        List.forall_mem_cons.2 ⟨⟨hword, hnew⟩, hin⟩ x (List.perm_middle.mem_iff.1 hx)
      refine (sweepTokens_failed hV hK (Nat.succ.inj hlen) hwithin ?_ hin' hrest).perm ?_
      · rw [List.length_modify, List.length_modify, htc]
      · exact List.perm_middle

theorem sweepDocument_failed (hV : base.vocSize = o.vocSize) (hK : base.topicNum = o.topicNum)
    {tokens : List Nat} (hw : ∀ w ∈ tokens, w < base.vocSize) :
    ∀ {n : Nat} {s : TopicState} {c c' : Counts} {g g' : γ},
    tokens.length = s.assignment.length → (∀ k ∈ s.assignment, k < base.topicNum) →
    s.counts.length = o.topicNum → c.Extends base (tokens.zip s.assignment) →
    sweepDocument o .train tokens n s c g = (.error e, c', g') → HoldsRest base tokens e c'
  | 0, _, _, _, _, _, _, _, _, _, h => by cases h
  | n + 1, s, c, c', g, g', hlen, hk, htc, hext, h => by
    rw [← List.append_nil (tokens.zip _)] at hext
    rcases sweepDocument_succ_error h with hpass | ⟨news, tc, c₁, g₁, hpass, hrest⟩
    · have hin : Within base.vocSize base.topicNum (tokens.zip s.assignment ++ []) := by
        rw [List.append_nil]
        exact fun x hx => ⟨hw _ (List.of_mem_zip hx).1, hk _ (List.of_mem_zip hx).2⟩
      simpa using sweepTokens_failed hV hK hlen hin htc hext hpass
    · obtain ⟨hnews, hlt⟩ := sweepTokens_topics hlen hpass
      have htc₁ := (sweepTokens_sizes hpass).1.trans htc
      have hext₁ := sweepTokens_extends hpass hw (htc.trans hK.symm) hext
      rw [List.append_nil] at hext₁
      exact sweepDocument_failed hV hK hw (s := ⟨tc, news⟩) (hlen.trans hnews.symm)
        (fun k hk => by have := hlt k hk; omega) htc₁ hext₁ hrest

/-! ## Documents -/

omit [Scalar α] [Arithmetic] in
theorem Document.checkEntries_ne_degenerate {id : Int} {V : Nat} : ∀ {es : List (Nat × Nat)},
    checkEntries id V es ≠ .error (.degenerateWeights word topic weight)
  | [] => by simp [checkEntries]
  | (w, n) :: es => by
    rw [checkEntries]
    split
    · simp
    · split
      · simp
      · exact checkEntries_ne_degenerate

omit [Scalar α] in
/-- No check reports a weight. -/
theorem checkSample_ne_degenerate {d : Document} {s : TopicState} :
    checkSample o sweeps d s c ≠ .error (.degenerateWeights word topic weight) := by
  have hshape : c.checkShape o ≠ .error (.degenerateWeights word topic weight) := by
    rw [Counts.checkShape]
    split <;> simp
  have hwords : d.checkWords o.vocSize ≠ .error (.degenerateWeights word topic weight) := by
    rw [Document.checkWords]
    split
    · simp
    · exact Document.checkEntries_ne_degenerate
  have hstate : s.check d o.topicNum ≠ .error (.degenerateWeights word topic weight) := by
    rw [TopicState.check]
    grind
  rw [checkSample]
  split
  · simp
  · simp [Outcome.bind_eq_error_iff, hshape, hwords, hstate]

/-- In training a document that fails in its passes leaves the counts with all its tokens but one.
-/
theorem sample_holdsRest {d : Document} {s : TopicState}
    (hext : c.Extends base (d.assigned s.assignment))
    (hcheck : checkSample o sweeps d s c = .ok ())
    (h : sweepDocument o .train d.tokens sweeps s c g = (.error e, c', g')) :
    HoldsRest base d.tokens e c' := by
  obtain ⟨-, ⟨hV, hK⟩, hwords, hstate⟩ := checkSample_ok_iff.1 hcheck
  obtain ⟨hcounts, hlen, -, -, hk⟩ := TopicState.check_ok_iff.1 hstate
  have hV : base.vocSize = o.vocSize := hext.vocSize_eq.symm.trans hV
  have hK : base.topicNum = o.topicNum := hext.topicNum_eq.symm.trans hK
  exact sweepDocument_failed hV hK (hV ▸ Document.lt_of_mem_tokens hwords)
    ((Document.length_tokens hwords).trans hlen.symm) (hK ▸ hk) hcounts hext h

/-- Seen from the counts before: the word of the failure has lost a token. -/
theorem sample_lostToken {d : Document} {s : TopicState} (hc : c.Stored) (hc' : c'.Stored)
    (hcheck : checkSample o sweeps d s c = .ok ())
    (h : sweepDocument o .train d.tokens sweeps s c g = (.error e, c', g')) :
    ∃ word topic weight, e = .error (.degenerateWeights word topic weight) ∧ word ∈ d.tokens ∧
      c.LostToken c' word := by
  obtain ⟨-, ⟨hV, hK⟩, hwords, hstate⟩ := checkSample_ok_iff.1 hcheck
  obtain ⟨-, hlen, -, -, hk⟩ := TopicState.check_ok_iff.1 hstate
  have hin := Document.within_assigned hwords hk
  rw [← hV, ← hK] at hin
  -- whatever the counts are, the tokens of the document can be read as held on top of others
  obtain ⟨base, hbase, hext⟩ := Counts.exists_extends hc hin
  rw [hext.vocSize_eq, hext.topicNum_eq] at hin
  obtain ⟨word, topic, weight, rest, he, hperm, hrest, hext'⟩ := sample_holdsRest hext hcheck h
  refine ⟨word, topic, weight, he, hperm.mem_iff.1 List.mem_cons_self, ?_⟩
  apply hext.lostToken hext' hc hc' hbase hin hrest
  rwa [Document.map_fst_assigned hwords hlen]

end

end TopicModel
