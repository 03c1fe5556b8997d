import Mathlib
import TopicModel.Proofs.FailedSamples
import TopicModel.Proofs.Scoring

/-!
# The words of a document as a distribution

A score takes each word of a document from a mixture: the topics of the document have shares, and so
have the words of every topic. The shares of the words sum to one, since the totals of a consistent
model are the sums of its columns (`sum_wordShare`), so the mixture sums to what the shares of the
topics do (`sum_tokenProbability`). That is one just if the counts of the state sum to the number of
tokens (`sum_topicShare_eq_one_iff`). Then a score takes the words from a probability distribution,
and no term of a log-likelihood is positive.

This is what the check of a state compares, as `isConsistent` compares the totals with the columns.
But both add in the arithmetic of the program, and what is compared are sums that may have wrapped
around. So it is asked that the sums have room. The scalars are the reals.

What is asked of the model is that it has the dimensions of its options, is consistent, and holds no
negative count. It need not be the counts of any tokens.
-/

namespace TopicModel

open Arithmetic (unsigned)

variable {o : Options ℝ} {c : Counts} {d : Document} {s : TopicState} {w k : Nat}

/-- The share of a topic in a document. -/
noncomputable def topicShare (o : Options ℝ) (d : Document) (s : TopicState) (topic : Nat) : ℝ :=
  ((s.counts.getD topic 0 : ℤ) + o.alpha) / (d.tokenCount + o.topicNum * o.alpha)

theorem sum_map_nonpos {τ : Type} {f : τ → ℝ} {l : List τ} (h : ∀ x ∈ l, f x ≤ 0) :
    (l.map f).sum ≤ 0 := by
  have hle := List.sum_le_card_nsmul (l.map f) 0 (List.forall_mem_map.2 h)
  rwa [nsmul_zero] at hle

/-! ## Shares -/

theorem Options.pos_of_check (ho : o.check = .ok ()) :
    0 < o.alpha ∧ 0 < o.beta ∧ 0 < o.vocSize ∧ 0 < o.topicNum := by
  obtain ⟨halpha, hbeta, hV, hK⟩ := Model.check_ok_iff.1 ho
  exact ⟨isProper_iff.1 halpha, isProper_iff.1 hbeta, hV, hK⟩

theorem topicShare_pos (ho : o.check = .ok ()) (hs : ∀ n ∈ s.counts, 0 ≤ n) :
    0 < topicShare o d s k := by
  obtain ⟨halpha, -, -, hK⟩ := Options.pos_of_check ho
  have hn : 0 ≤ s.counts.getD k 0 := by
    by_cases hk : k < s.counts.length
    · rw [List.getD_eq_getElem _ _ hk]
      exact hs _ (List.getElem_mem hk)
    · rw [List.getD_eq_default _ _ (by omega)]
  have hn : (0 : ℝ) ≤ (s.counts.getD k 0 : ℤ) := Int.cast_nonneg hn
  have hK : (0 : ℝ) < o.topicNum := Nat.cast_pos.2 hK
  unfold topicShare
  positivity

theorem sum_topicShare (hlen : s.counts.length = o.topicNum) :
    ∑ k ∈ Finset.range o.topicNum, topicShare o d s k =
      ((s.counts.sum : ℤ) + o.topicNum * o.alpha) / (d.tokenCount + o.topicNum * o.alpha) := by
  have hcounts : ∑ k ∈ Finset.range o.topicNum, s.counts.getD k 0 = s.counts.sum := by
    rw [← hlen, Finset.sum_range]
    simp
  have hcounts : ∑ k ∈ Finset.range o.topicNum, ((s.counts.getD k 0 : ℤ) : ℝ) =
      (s.counts.sum : ℤ) := by
    rw [← Int.cast_sum, hcounts]
  calc ∑ k ∈ Finset.range o.topicNum, topicShare o d s k
      = (∑ k ∈ Finset.range o.topicNum, ((s.counts.getD k 0 : ℤ) + o.alpha)) /
          (d.tokenCount + o.topicNum * o.alpha) := (Finset.sum_div ..).symm
    _ = ((s.counts.sum : ℤ) + o.topicNum * o.alpha) / (d.tokenCount + o.topicNum * o.alpha) := by
      rw [Finset.sum_add_distrib, hcounts, Finset.sum_const, Finset.card_range, nsmul_eq_mul]

/-- The shares of the topics sum to one just if the counts sum to the number of tokens. -/
theorem sum_topicShare_eq_one_iff (ho : o.check = .ok ()) (hlen : s.counts.length = o.topicNum) :
    ∑ k ∈ Finset.range o.topicNum, topicShare o d s k = 1 ↔ s.counts.sum = d.tokenCount := by
  obtain ⟨halpha, -, -, hK⟩ := Options.pos_of_check ho
  have hK : (0 : ℝ) < o.topicNum := Nat.cast_pos.2 hK
  have hnorm : (d.tokenCount : ℝ) + o.topicNum * o.alpha ≠ 0 := by positivity
  rw [sum_topicShare hlen, div_eq_one_iff_eq hnorm, add_left_inj]
  exact_mod_cast Iff.rfl

/-- The shares of the words in a topic sum to one, because the total is the sum of the column. -/
theorem sum_wordShare (ho : o.check = .ok ()) (hnonneg : ∀ n ∈ c.flat, 0 ≤ n)
    (hcolumn : ∑ w ∈ Finset.range o.vocSize, c.value w k = c.value o.vocSize k) :
    ∑ w ∈ Finset.range o.vocSize, wordShare o (c.value w k) (c.value o.vocSize k) = 1 := by
  obtain ⟨-, hbeta, hvoc, -⟩ := Options.pos_of_check ho
  have hcolumn : ∑ w ∈ Finset.range o.vocSize, ((c.value w k : ℤ) : ℝ) = c.value o.vocSize k := by
    rw [← Int.cast_sum, hcolumn]
  have htotal : (0 : ℝ) ≤ (c.value o.vocSize k : ℤ) :=
    Int.cast_nonneg (Counts.value_nonneg hnonneg _ _)
  have hvoc : (0 : ℝ) < o.vocSize := Nat.cast_pos.2 hvoc
  have hnorm : ((c.value o.vocSize k : ℤ) : ℝ) + o.vocSize * o.beta ≠ 0 := by positivity
  calc ∑ w ∈ Finset.range o.vocSize, wordShare o (c.value w k) (c.value o.vocSize k)
      = (∑ w ∈ Finset.range o.vocSize, ((c.value w k : ℤ) + o.beta)) /
          ((c.value o.vocSize k : ℤ) + o.vocSize * o.beta) := (Finset.sum_div ..).symm
    _ = ((c.value o.vocSize k : ℤ) + o.vocSize * o.beta) /
          ((c.value o.vocSize k : ℤ) + o.vocSize * o.beta) := by
      rw [Finset.sum_add_distrib, hcolumn, Finset.sum_const, Finset.card_range, nsmul_eq_mul]
    _ = 1 := div_self hnorm

/-! ## The mixture -/

theorem tokenProbability_eq : tokenProbability o c d s w =
    ∑ k ∈ Finset.range o.topicNum,
      topicShare o d s k * wordShare o (c.value w k) (c.value o.vocSize k) := rfl

theorem tokenProbability_pos (ho : o.check = .ok ()) (hnonneg : ∀ n ∈ c.flat, 0 ≤ n)
    (hs : ∀ n ∈ s.counts, 0 ≤ n) : 0 < tokenProbability o c d s w := by
  obtain ⟨-, -, -, hK⟩ := Options.pos_of_check ho
  rw [tokenProbability_eq]
  refine Finset.sum_pos (fun k _ => mul_pos (topicShare_pos ho hs) ?_)
    (Finset.nonempty_range_iff.2 hK.ne')
  exact isProper_iff.1 (wordShare_proper ho (Counts.value_nonneg hnonneg _ _)
    (Counts.value_nonneg hnonneg _ _))

section
variable [Arithmetic] (ho : o.check = .ok ()) (hshape : c.HasShape o.vocSize o.topicNum)
  (hconsistent : c.isConsistent = true) (hroom : c.ColumnsHaveRoom) (hnonneg : ∀ n ∈ c.flat, 0 ≤ n)
include ho hshape hconsistent hroom hnonneg

/-- The probabilities of the words sum to what the shares of the topics do. -/
theorem sum_tokenProbability : ∑ w ∈ Finset.range o.vocSize, tokenProbability o c d s w =
    ∑ k ∈ Finset.range o.topicNum, topicShare o d s k := by
  calc ∑ w ∈ Finset.range o.vocSize, tokenProbability o c d s w
      = ∑ k ∈ Finset.range o.topicNum, ∑ w ∈ Finset.range o.vocSize,
          topicShare o d s k * wordShare o (c.value w k) (c.value o.vocSize k) := Finset.sum_comm
    _ = ∑ k ∈ Finset.range o.topicNum, topicShare o d s k := by
      refine Finset.sum_congr rfl fun k hk => ?_
      have hk : k < c.topicNum := by rw [hshape.2]; exact Finset.mem_range.1 hk
      have hcolumn := hroom.total_eq hconsistent hk
      rw [hshape.1] at hcolumn
      rw [← Finset.mul_sum, sum_wordShare ho hnonneg hcolumn, mul_one]

/-- They sum to one just if the counts of the state sum to the number of tokens. -/
theorem sum_tokenProbability_eq_one_iff (hs : s.check (α := ℝ) d o.topicNum = .ok ()) :
    ∑ w ∈ Finset.range o.vocSize, tokenProbability o c d s w = 1 ↔
      s.counts.sum = d.tokenCount := by
  rw [sum_tokenProbability ho hshape hconsistent hroom hnonneg,
    sum_topicShare_eq_one_iff ho (TopicState.check_ok_iff.1 hs).1]

section
variable (hs : s.check (α := ℝ) d o.topicNum = .ok ()) (hsum : s.counts.sum = d.tokenCount)
include hs hsum

theorem tokenProbability_le_one (hw : w < o.vocSize) : tokenProbability o c d s w ≤ 1 := by
  obtain ⟨-, -, -, hcounts, -⟩ := TopicState.check_ok_iff.1 hs
  rw [← (sum_tokenProbability_eq_one_iff ho hshape hconsistent hroom hnonneg hs).2 hsum]
  exact Finset.single_le_sum (f := tokenProbability o c d s)
    (fun i _ => (tokenProbability_pos ho hnonneg hcounts).le) (Finset.mem_range.2 hw)

/-- Where there is another word, it has a probability too. -/
theorem tokenProbability_lt_one (hw : w < o.vocSize) (hV : 2 ≤ o.vocSize) :
    tokenProbability o c d s w < 1 := by
  obtain ⟨-, -, -, hcounts, -⟩ := TopicState.check_ok_iff.1 hs
  obtain ⟨v, hv, hne⟩ : ∃ v < o.vocSize, v ≠ w := by
    by_cases hzero : w = 0
    · exact ⟨1, by omega, by omega⟩
    · exact ⟨0, by omega, by omega⟩
  rw [← (sum_tokenProbability_eq_one_iff ho hshape hconsistent hroom hnonneg hs).2 hsum]
  exact Finset.single_lt_sum hne (Finset.mem_range.2 hw) (Finset.mem_range.2 hv)
    (tokenProbability_pos ho hnonneg hcounts) fun i _ _ =>
      (tokenProbability_pos ho hnonneg hcounts).le

/-- No word raises the log-likelihood. -/
theorem log_tokenProbability_nonpos (hw : w < o.vocSize) (count : Nat) :
    count * Real.log (tokenProbability o c d s w) ≤ 0 := by
  obtain ⟨-, -, -, hcounts, -⟩ := TopicState.check_ok_iff.1 hs
  exact mul_nonpos_of_nonneg_of_nonpos (Nat.cast_nonneg _)
    (Real.log_nonpos (tokenProbability_pos ho hnonneg hcounts).le
      (tokenProbability_le_one ho hshape hconsistent hroom hnonneg hs hsum hw))

end

theorem documentScore_nonpos (hcheck : checkSample o 1 d s c = .ok ())
    (hsum : s.counts.sum = d.tokenCount) : documentScore o c (d, s) ≤ 0 := by
  obtain ⟨-, -, hwords, hs⟩ := checkSample_ok_iff.1 hcheck
  refine sum_map_nonpos fun x hx => ?_
  exact log_tokenProbability_nonpos ho hshape hconsistent hroom hnonneg hs hsum
    ((Document.checkWords_ok_iff.1 hwords).2 x hx).1 x.2

/-! ## Perplexities -/

omit hconsistent hroom in
/-- The probability of a word is computed without a failure. -/
theorem wordProbability_eq_tokenProbability (hs : s.check (α := ℝ) d o.topicNum = .ok ())
    (hw : w < o.vocSize) :
    wordProbability o c w 0 (topicShares o d.tokenCount s.counts) Scalar.zero =
      .ok (tokenProbability o c d s w) := by
  have hlen := (TopicState.check_ok_iff.1 hs).1
  have hshares : (topicShares o d.tokenCount s.counts).length = c.topicNum := by
    rw [topicShares, List.length_map, hlen, hshape.2]
  cases h : wordProbability o c w 0 (topicShares o d.tokenCount s.counts) Scalar.zero with
  | error e =>
    have hraises := wordProbability_error (by rwa [hshape.1]) (by omega) h
    exact absurd hraises (not_raisesShare ho hnonneg e)
  | ok y => rw [wordProbability_eq hshape hlen hw h]

/-- Documents that pass the checks and whose states count their tokens have a perplexity of at least
one, if the number of tokens they have is not stored as zero. -/
theorem Scoring.one_le_perplexity {g : Scoring}
    (hcheck : ∀ x ∈ g.pairs, checkSample o 1 x.1 x.2 c = .ok () ∧
      x.2.counts.sum = x.1.tokenCount)
    (htokens : unsigned 64 (g.pairs.map fun x => x.1.tokenCount).sum ≠ 0) :
    ∃ y, g.perplexity o c = .ok y ∧ 1 ≤ y := by
  obtain ⟨p, hp⟩ := g.run_ok_iff.2 fun x hx => accepts_of_nonneg ho hnonneg (hcheck x hx).1
  rw [← Scoring.run_tokens hp] at htokens
  have hscore : p.logLikelihood ≤ 0 := by
    rw [Scoring.run_score hp]
    exact sum_map_nonpos fun x hx => documentScore_nonpos ho hshape hconsistent hroom hnonneg
      (hcheck x hx).1 (hcheck x hx).2
  refine ⟨Real.exp (-p.logLikelihood / p.tokens), ?_, ?_⟩
  · rw [Scoring.perplexity, hp, Outcome.ok_bind, Perplexity.value, if_neg htokens]
    simp [Outcome.ofCheck, Scalar.exp, Scalar.ofNat, Scalar.ofInt]
  · exact Real.one_le_exp (div_nonneg (neg_nonneg.2 hscore) (Nat.cast_nonneg _))

end

end TopicModel
