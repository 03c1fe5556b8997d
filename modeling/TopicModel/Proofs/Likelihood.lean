import Mathlib
import TopicModel.Proofs.Gathering
import TopicModel.Proofs.Scoring

/-!
# The likelihood of counts, token by token

With exact scalars the log-likelihood of counts is a chain of predictions. Of the gamma function it
needs no more than that its logarithm grows by `log x` from `x` to `x + 1`, so that it is taken with
any such function (`Counts.exactLogLikelihood`). A token changes one entry and one total, each in
its own half of the flat form (`Counts.toList_increment`), and so adds the logarithm of the share
of its word in its topic before it was counted (`Counts.exactLogLikelihood_increment`), the factor
by which a weight of the sampler depends on the word. Without tokens nothing is left of the
normalizing terms. The counts of a corpus are therefore scored by the predictions of its tokens one
after the other, in any order (`Counts.likelihood_predicts`).
-/

namespace TopicModel

open Arithmetic (signed)

/-- The reals as scalars, with the given function as the logarithm of the gamma function. -/
@[reducible] noncomputable def Scalar.withLnGamma (lnG : ℝ → ℝ) : Scalar ℝ :=
  { (inferInstance : Scalar ℝ) with lnGamma := lnG }

/-- The log-likelihood of counts, with the given function as the logarithm of the gamma function. -/
noncomputable def Counts.exactLogLikelihood (lnG : ℝ → ℝ) (c : Counts) (beta : ℝ) : ℝ :=
  letI := Scalar.withLnGamma lnG
  c.logLikelihood beta

/-- The sum of the logarithms of the probabilities of tokens, each predicted from those before it:
the share of its word among the tokens of its topic, smoothed by `beta`. -/
noncomputable def predictiveScore (vocSize : Nat) (beta : ℝ) :
    (before tokens : List (Nat × Nat)) → ℝ
  | _, [] => 0
  | before, (word, topic) :: tokens =>
    Real.log ((before.count (word, topic) + beta) /
      ((before.map Prod.snd).count topic + vocSize * beta)) +
      predictiveScore vocSize beta ((word, topic) :: before) tokens

/-! ## Sums over the flat form -/

theorem sum_eq (xs : List ℝ) : Scalar.sum xs = xs.sum := by
  rw [Scalar.sum, zero_eq, List.sum_eq_foldl]

/-- Changing one item changes the sum by the difference that it makes. -/
theorem sum_map_modify (f : Int → ℝ) (g : Int → Int) : ∀ {l : List Int} {i : Nat} {n : Int},
    l[i]? = some n → ((l.modify i g).map f).sum = (l.map f).sum + (f (g n) - f n)
  | m :: l, 0, n, h => by
    obtain rfl : m = n := Option.some.inj h
    rw [List.modify_zero_cons, List.map_cons, List.map_cons, List.sum_cons, List.sum_cons]
    ring
  | m :: l, i + 1, n, h => by
    rw [List.modify_succ_cons, List.map_cons, List.map_cons, List.sum_cons, List.sum_cons,
      sum_map_modify f g (l := l) h]
    ring

namespace Counts

variable {lnG : ℝ → ℝ} {beta : ℝ} {c d : Counts} {V K w k : Nat}

/-- There is room for one more token of the word with the topic. -/
def HasRoomFor [Arithmetic] (c : Counts) (word topic : Nat) : Prop :=
  signed (c.value word topic + 1) = c.value word topic + 1 ∧
    signed (c.value c.vocSize topic + 1) = c.value c.vocSize topic + 1

theorem exactLogLikelihood_eq (lnG : ℝ → ℝ) (c : Counts) (beta : ℝ) :
    c.exactLogLikelihood lnG beta =
      c.topicNum * (lnG (c.vocSize * beta) - c.vocSize * lnG beta) +
        ((c.flat.toList.take (c.vocSize * c.topicNum)).map fun n : Int => lnG (n + beta)).sum -
        ((c.flat.toList.drop (c.vocSize * c.topicNum)).map fun n : Int =>
          lnG (n + c.vocSize * beta)).sum := by
  have hsum : ∀ (shift : ℝ) (counts : List Int),
      @sumLnGamma ℝ (Scalar.withLnGamma lnG) shift counts =
        (counts.map fun n : Int => lnG (n + shift)).sum := fun shift counts => sum_eq _
  have hnat : ∀ n : Nat, @Scalar.ofNat ℝ (Scalar.withLnGamma lnG) n = n := fun n =>
    Int.cast_natCast n
  simp only [exactLogLikelihood, logLikelihood, hsum, hnat]
  rfl

/-- A token changes one place of the words and one of the totals. -/
theorem toList_increment [Arithmetic] (h : c.InRange w k) : (c.increment w k).flat.toList =
    (c.flat.toList.modify (c.index w k) fun n => signed (n + 1)).modify (c.index c.vocSize k)
      fun n => signed (n + 1) := by
  rw [increment, addTokens, if_pos h]
  simp [modifyFlat]

theorem index_lt_words (hw : w < c.vocSize) (hk : k < c.topicNum) :
    c.index w k < c.vocSize * c.topicNum := by
  calc c.index w k < w * c.topicNum + c.topicNum := Nat.add_lt_add_left hk _
    _ = (w + 1) * c.topicNum := (Nat.succ_mul w c.topicNum).symm
    _ ≤ c.vocSize * c.topicNum := Nat.mul_le_mul_right _ hw

theorem smoothed_word_pos (hbeta : 0 < beta) (hnonneg : ∀ n ∈ c.flat, 0 ≤ n) (w k : Nat) :
    (0 : ℝ) < c.value w k + beta :=
  add_pos_of_nonneg_of_pos (Int.cast_nonneg (value_nonneg hnonneg w k)) hbeta

theorem smoothed_total_pos (hbeta : 0 < beta) (hnonneg : ∀ n ∈ c.flat, 0 ≤ n)
    (hw : w < c.vocSize) (k : Nat) : (0 : ℝ) < c.value c.vocSize k + c.vocSize * beta :=
  have hvoc : (0 : ℝ) < c.vocSize := Nat.cast_pos.2 (Nat.zero_lt_of_lt hw)
  add_pos_of_nonneg_of_pos (Int.cast_nonneg (value_nonneg hnonneg _ k)) (mul_pos hvoc hbeta)

section
variable [Arithmetic] (hw : w < c.vocSize) (hk : k < c.topicNum)
include hw hk

/-- The words of the flat form grow by one token at the place of the word and its topic. -/
theorem sum_words_increment (f : Int → ℝ) :
    (((c.increment w k).flat.toList.take (c.vocSize * c.topicNum)).map f).sum =
      ((c.flat.toList.take (c.vocSize * c.topicNum)).map f).sum +
        (f (signed (c.value w k + 1)) - f (c.value w k)) := by
  have hr : c.InRange w k := ⟨hw.le, hk⟩
  have hindex := index_lt_words hw hk
  have hentry : (c.flat.toList.take (c.vocSize * c.topicNum))[c.index w k]? =
      some (c.value w k) := by
    rw [List.getElem?_take_of_lt hindex, Array.getElem?_toList, value_eq hr]
  rw [toList_increment hr, List.take_modify, List.take_modify, List.modify_eq_self,
    sum_map_modify f _ hentry]
  rw [List.length_modify]
  exact (List.length_take_le _ _).trans (Nat.le_add_right _ _)

/-- So do the totals, at the place of the topic. -/
theorem sum_totals_increment (f : Int → ℝ) :
    (((c.increment w k).flat.toList.drop (c.vocSize * c.topicNum)).map f).sum =
      ((c.flat.toList.drop (c.vocSize * c.topicNum)).map f).sum +
        (f (signed (c.value c.vocSize k + 1)) - f (c.value c.vocSize k)) := by
  have hr : c.InRange w k := ⟨hw.le, hk⟩
  have htotal : (c.flat.toList.drop (c.vocSize * c.topicNum))[k]? =
      some (c.value c.vocSize k) := by
    rw [List.getElem?_drop, Array.getElem?_toList]
    exact value_eq ⟨Nat.le_refl _, hk⟩
  have hindex : c.vocSize * c.topicNum ≤ c.index c.vocSize k := Nat.le_add_right _ _
  have hplace : c.index c.vocSize k - c.vocSize * c.topicNum = k := Nat.add_sub_cancel_left ..
  rw [toList_increment hr, List.drop_modify_of_ge _ _ _ _ hindex,
    List.drop_modify_of_lt _ _ _ _ (index_lt_words hw hk), hplace,
    sum_map_modify f _ htotal]

/-- One more token of a word adds the logarithm of the share of the word in its topic. -/
theorem exactLogLikelihood_increment (hlnG : ∀ x, 0 < x → lnG (x + 1) = lnG x + Real.log x)
    (hbeta : 0 < beta) (hnonneg : ∀ n ∈ c.flat, 0 ≤ n) (hroom : c.HasRoomFor w k) :
    (c.increment w k).exactLogLikelihood lnG beta = c.exactLogLikelihood lnG beta +
      Real.log ((c.value w k + beta) / (c.value c.vocSize k + c.vocSize * beta)) := by
  have hword := smoothed_word_pos hbeta hnonneg w k
  have htopic := smoothed_total_pos hbeta hnonneg hw k
  have hgrows : ∀ (n : Int) (shift : ℝ), 0 < n + shift →
      lnG ((n + 1 : Int) + shift) - lnG (n + shift) = Real.log (n + shift) := by
    intro n shift hpos
    rw [Int.cast_add, Int.cast_one, add_right_comm, hlnG _ hpos, add_sub_cancel_left]
  have hV : (c.increment w k).vocSize = c.vocSize := vocSize_addTokens ..
  have hK : (c.increment w k).topicNum = c.topicNum := topicNum_addTokens ..
  rw [exactLogLikelihood_eq, exactLogLikelihood_eq, hV, hK, sum_words_increment hw hk,
    sum_totals_increment hw hk, hroom.1, hroom.2, hgrows _ _ hword, hgrows _ _ htopic,
    Real.log_div hword.ne' htopic.ne']
  ring

end

/-- Without tokens the gamma factors cancel the normalizing terms. -/
theorem exactLogLikelihood_zeros (lnG : ℝ → ℝ) (V K : Nat) (beta : ℝ) :
    (zeros V K).exactLogLikelihood lnG beta = 0 := by
  have hrest : (V + 1) * K - V * K = K := by rw [Nat.succ_mul, Nat.add_sub_cancel_left]
  rw [exactLogLikelihood_eq]
  simp [zeros, List.take_replicate, List.drop_replicate, hrest]
  ring

/-! ## Chains of predictions -/

section
variable [Arithmetic] (hlnG : ∀ x, 0 < x → lnG (x + 1) = lnG x + Real.log x) (hbeta : 0 < beta)
include hlnG hbeta

/-- Tokens on top of others add their predictions. -/
theorem Tallies.exactLogLikelihood : ∀ {tokens before : List (Nat × Nat)} {c d : Counts},
    c.Tallies V K before → Within V K tokens → d.Tallies V K (tokens ++ before) →
    Arithmetic.HasRoom (tokens ++ before).length →
    d.exactLogLikelihood lnG beta =
      c.exactLogLikelihood lnG beta + predictiveScore V beta before tokens
  | [], before, c, d, hc, _, hd => fun _ => by
    rw [hd.unique hc, predictiveScore, add_zero]
  | (word, topic) :: tokens, before, c, d, hc, hin, hd => fun hroom => by
    obtain ⟨⟨hw, hk⟩, hin⟩ := List.forall_mem_cons.1 hin
    have hone := hc.increment hw hk
    have hbefore : Arithmetic.HasRoom (before.length + 1) := hroom.mono (by simp)
    have hofWord : before.count (word, topic) ≤ before.length := List.count_le_length
    have hofTopic : (before.map Prod.snd).count topic ≤ before.length :=
      List.count_le_length.trans (Nat.le_of_eq (List.length_map _))
    have hentry := (hc.value_entry hw hk).trans (hbefore.mono (Nat.le_succ_of_le hofWord))
    have htotal := (hc.value_total hk).trans (hbefore.mono (Nat.le_succ_of_le hofTopic))
    have hplace : c.HasRoomFor word topic := by
      rw [HasRoomFor, hc.vocSize_eq, hentry, htotal]
      exact ⟨hbefore.mono (Nat.succ_le_succ hofWord), hbefore.mono (Nat.succ_le_succ hofTopic)⟩
    have hstep := exactLogLikelihood_increment (hw.trans_eq hc.vocSize_eq.symm)
      (hk.trans_eq hc.topicNum_eq.symm) hlnG hbeta (hc.nonneg (hbefore.mono (Nat.le_succ _))) hplace
    rw [hc.vocSize_eq, hentry, htotal, Int.cast_natCast, Int.cast_natCast] at hstep
    rw [Tallies.exactLogLikelihood hone hin (hd.perm List.perm_middle.symm)
        (hroom.mono (by simp; omega)), hstep, predictiveScore, add_assoc]

/-- A weight of the sampler depends on the word by the factor that a token of the word is worth. -/
theorem conditional_eq_exp {o : Options ℝ} (hV : o.vocSize = c.vocSize) (ho : o.beta = beta)
    (hnonneg : ∀ n ∈ c.flat, 0 ≤ n) (hw : w < c.vocSize) (hk : k < c.topicNum)
    (hroom : c.HasRoomFor w k) (n : Int) :
    conditional o n (c.value w k) (c.value c.vocSize k) = (n + o.alpha) *
      Real.exp ((c.increment w k).exactLogLikelihood lnG beta - c.exactLogLikelihood lnG beta) := by
  have hpos := div_pos (smoothed_word_pos hbeta hnonneg w k) (smoothed_total_pos hbeta hnonneg hw k)
  rw [exactLogLikelihood_increment hw hk hlnG hbeta hnonneg hroom, add_sub_cancel_left,
    Real.exp_log hpos, ← mul_div_assoc]
  simp [conditional, Options.vocBeta, Scalar.ofNat, Scalar.ofInt, hV, ho]

end

end Counts

/-- Accepted documents have their tokens in the layout. -/
theorem Gathering.within_assignedTokens {V K : Nat} {pairs : List (Document × List Nat)}
    (h : ∀ x ∈ pairs, Accepted ℝ V K x) : Counts.Within V K (assignedTokens pairs) := by
  intro x hx
  obtain ⟨y, hy, hx⟩ := List.mem_flatMap.1 hx
  obtain ⟨hwords, -, hk⟩ := Tally.checkAssignment_ok_iff.1 (h y hy)
  exact Document.within_assigned hwords hk x hx

end TopicModel
