import Mathlib
import TopicModel.Double
import TopicModel.Proofs.Prediction

/-!
# The books of a resampled document

A state from outside may count its tokens otherwise than its assignment does. Resampling then moves
its counts by as much as it moves tokens: what a state counts beyond the tokens it has of a topic,
its `TopicState.surplus`, stays as it is. In training the counts of the model move along, so that
an entry changes by the tokens that the document has gained or lost there and all sums are kept
(`Counts.Reassigned`). `sample_accounts` is the whole of it.

What `sample` gives out passes every part of `TopicState.check` but the sign of its counts: a topic
with a negative surplus can be left with too few tokens to make up for it (`sample_check`). In exact
arithmetic no count is left at `-alpha` or below (`sample_counts_gt`), since the weight of the topic
would not be positive; so hyperparameters up to one keep the check (`sample_check_of_alpha_le`).
-/

namespace TopicModel

open Arithmetic (modulus signed)

/-! ## Surplus -/

namespace TopicState

variable {α : Type} {d : Document} {s : TopicState} {K k : Nat}

/-- What a state counts for a topic beyond the tokens that it gives the topic. -/
def surplus (s : TopicState) (k : Nat) : Option Int :=
  s.counts[k]?.map (· - (s.assignment.count k : Int))

/-- A state that fits its document has no surplus. -/
theorem Fits.surplus (h : s.Fits d K) (hk : k < K) : s.surplus k = some 0 := by
  rw [TopicState.surplus, h.counts_eq, getElem?_histogram, if_pos hk, Option.map_some, Int.sub_self]

theorem getD_counts (hk : k < s.counts.length) :
    s.counts.getD k 0 = (s.surplus k).getD 0 + (s.assignment.count k : Int) := by
  rw [List.getD_eq_getElem?_getD, surplus, List.getElem?_eq_getElem hk]
  simp

theorem counts_eq (hK : s.counts.length = K) :
    s.counts = (List.range K).map fun k => (s.surplus k).getD 0 + (s.assignment.count k : Int) := by
  apply List.ext_getElem?
  intro k
  rw [List.getElem?_map]
  by_cases hk : k < K
  · have hlt : k < s.counts.length := hK.symm ▸ hk
    rw [List.getElem?_range hk, Option.map_some, ← getD_counts hlt, List.getElem?_eq_getElem hlt,
      List.getD_eq_getElem _ _ hlt]
  · rw [List.getElem?_eq_none (by omega), List.getElem?_eq_none (by simpa using hk)]
    rfl

/-- A state counts its tokens and its surplus. -/
theorem sum_counts (hK : s.counts.length = K) (hlt : ∀ k ∈ s.assignment, k < K) :
    s.counts.sum =
      ((List.range K).map fun k => (s.surplus k).getD 0).sum + s.assignment.length := by
  rw [counts_eq hK, List.sum_map_add, ← sum_histogram hlt]
  rfl

theorem nonneg_iff (hK : s.counts.length = K) : (∀ n ∈ s.counts, 0 ≤ n) ↔
    ∀ k < K, 0 ≤ (s.surplus k).getD 0 + (s.assignment.count k : Int) := by
  rw [counts_eq hK]
  simp

/-- A checked state of no tokens counts none, if the sum of its counts has room. -/
theorem eq_empty [Arithmetic] (h : s.check (α := α) d K = .ok ()) (hd : d.tokenCount = 0)
    (hroom : signed s.counts.sum = s.counts.sum) : s = .empty K := by
  obtain ⟨hlen, hass, hsum, hneg, -⟩ := check_ok_iff.1 h
  rw [hd] at hass
  rw [hd, Arithmetic.sum_eq, hroom, Nat.cast_zero, Arithmetic.signed_zero] at hsum
  have hzero : ∀ n ∈ s.counts, n = 0 := fun n hn => by
    have hle := List.single_le_sum hneg n hn
    have hge := hneg n hn
    omega
  have hcounts : s.counts = List.replicate K 0 := List.eq_replicate_iff.2 ⟨hlen, hzero⟩
  have hassignment : s.assignment = [] := List.length_eq_zero_iff.1 hass
  obtain ⟨counts, assignment⟩ := s
  subst hcounts hassignment
  rfl

end TopicState

variable {α γ : Type} [Scalar α] [Generator γ] {o : Options α} {mode : SampleMode}
  {sweeps word old new : Nat} {d : Document} {s s' : TopicState} {tc tc' : List Int} {c c' : Counts}
  {g g' : γ}

/-! ## Topics and their counts -/

section
variable [Arithmetic]

/-- Passes over a document give every token a topic. -/
theorem sweepDocument_topics {tokens : List Nat} : ∀ {n : Nat} {s s' : TopicState}
    {c c' : Counts} {g g' : γ}, tokens.length = s.assignment.length →
    (∀ k ∈ s.assignment, k < s.counts.length) →
    sweepDocument o mode tokens n s c g = (.ok s', c', g') →
    s'.assignment.length = s.assignment.length ∧ s'.counts.length = s.counts.length ∧
      ∀ k ∈ s'.assignment, k < s'.counts.length
  | 0, _, _, _, _, _, _, _, hlt, h => by
    rw [sweepDocument] at h
    cases h
    exact ⟨rfl, rfl, hlt⟩
  | _ + 1, s, _, _, _, _, _, hlen, hlt, h => by
    obtain ⟨news, tc, c₁, g₁, hpass, hrest⟩ := sweepDocument_succ_ok h
    obtain ⟨hnews, hnews_lt⟩ := sweepTokens_topics hlen hpass
    obtain ⟨htc, -⟩ := sweepTokens_sizes hpass
    obtain ⟨hl, hc, hlt'⟩ := sweepDocument_topics (s := ⟨tc, news⟩) (hlen.trans hnews.symm)
      (fun k hk => htc.symm ▸ hnews_lt k hk) hrest
    exact ⟨hl.trans hnews, hc.trans htc, hlt'⟩

/-- Passes over a document change each of its counts by as much as the number of tokens with its
topic. -/
theorem sweepDocument_modEq {k : Nat} {tokens : List Nat} : ∀ {n : Nat} {s s' : TopicState}
    {c c' : Counts} {g g' : γ}, tokens.length = s.assignment.length → k < s.counts.length →
    sweepDocument o mode tokens n s c g = (.ok s', c', g') →
    s'.counts.getD k 0 ≡ s.counts.getD k 0 +
      ((s'.assignment.count k : Int) - s.assignment.count k) [ZMOD modulus]
  | 0, _, _, _, _, _, _, _, _, h => by
    rw [sweepDocument] at h
    cases h
    simp
  | _ + 1, s, _, _, _, _, _, hlen, hk, h => by
    obtain ⟨news, tc, c₁, g₁, hpass, hrest⟩ := sweepDocument_succ_ok h
    obtain ⟨hnews, -⟩ := sweepTokens_topics hlen hpass
    have hlater := sweepDocument_modEq (s := ⟨tc, news⟩) (hlen.trans hnews.symm)
      ((sweepTokens_sizes hpass).1.symm ▸ hk) hrest
    refine hlater.trans (Arithmetic.modEq_of_sub_eq (sweepTokens_modEq hlen hk hpass) ?_)
    dsimp only
    omega

theorem sweepDocument_stored {tokens : List Nat} : ∀ {n : Nat} {s s' : TopicState}
    {c c' : Counts} {g g' : γ}, Arithmetic.Stored s.counts →
    sweepDocument o mode tokens n s c g = (.ok s', c', g') → Arithmetic.Stored s'.counts
  | 0, _, _, _, _, _, _, hs, h => by
    rw [sweepDocument] at h
    cases h
    exact hs
  | _ + 1, _, _, _, _, _, _, hs, h => by
    obtain ⟨news, tc, c₁, g₁, hpass, hrest⟩ := sweepDocument_succ_ok h
    exact sweepDocument_stored (s := ⟨tc, news⟩) (sweepTokens_stored hs hpass) hrest

/-- A resampled document has a topic for every token. -/
theorem sample_topics (h : sample o mode sweeps d s c g = (.ok s', c', g')) :
    s'.assignment.length = d.tokenCount ∧ s'.counts.length = o.topicNum ∧
      ∀ k ∈ s'.assignment, k < o.topicNum := by
  obtain ⟨hcheck, hcase⟩ := sample_ok h
  obtain ⟨-, -, hwords, hstate⟩ := checkSample_ok_iff.1 hcheck
  obtain ⟨hlen, hass, -, -, hlt⟩ := TopicState.check_ok_iff.1 hstate
  rcases hcase with ⟨hempty, rfl, -, -⟩ | hswept
  · exact ⟨hempty.symm, List.length_replicate, List.forall_mem_nil _⟩
  · obtain ⟨hl, hc, hlt'⟩ := sweepDocument_topics
      ((Document.length_tokens hwords).trans hass.symm) (fun k hk => hlen.symm ▸ hlt k hk) hswept
    have hK := hc.trans hlen
    exact ⟨hl.trans hass, hK, hK ▸ hlt'⟩

/-- Each count of a resampled document is what is stored of the count before, the tokens gained and
those lost. A document without tokens has all its counts set to zero, which they were unless their
sum has wrapped around. -/
theorem sample_counts {k : Nat} (hs : Arithmetic.Stored s.counts)
    (hroom : d.tokenCount ≠ 0 ∨ signed s.counts.sum = s.counts.sum)
    (h : sample o mode sweeps d s c g = (.ok s', c', g')) (hk : k < o.topicNum) :
    s'.counts.getD k 0 =
      signed (s.counts.getD k 0 + ((s'.assignment.count k : Int) - s.assignment.count k)) := by
  obtain ⟨hcheck, hcase⟩ := sample_ok h
  obtain ⟨-, -, hwords, hstate⟩ := checkSample_ok_iff.1 hcheck
  obtain ⟨hlen, hass, -⟩ := TopicState.check_ok_iff.1 hstate
  rcases hcase with ⟨hempty, rfl, -, -⟩ | hswept
  · obtain rfl := TopicState.eq_empty hstate hempty (hroom.resolve_left (absurd hempty))
    simp [TopicState.empty]
  · have hlength := (Document.length_tokens hwords).trans hass.symm
    have hk' : k < s.counts.length := hlen.symm ▸ hk
    refine Arithmetic.eq_signed_of_modEq ?_ (sweepDocument_modEq hlength hk' hswept)
    have hsize := (sample_topics h).2.1
    rw [List.getD_eq_getElem _ _ (hsize.symm ▸ hk)]
    exact sweepDocument_stored hs hswept _ (List.getElem_mem _)

end

/-! ## Counts that move along -/

section
variable [Arithmetic]

/-- Counts `c'` hold tokens in place of others, that is of the same words with other topics, and
have the sums of `c`. -/
structure Counts.Reassigned (c c' : Counts) (old new : List (Nat × Nat)) : Prop where
  vocSize_eq : c'.vocSize = c.vocSize
  topicNum_eq : c'.topicNum = c.topicNum
  entry : ∀ word < c.vocSize, ∀ topic, c'.entry? word topic = (c.entry? word topic).map fun n =>
    signed (n + ((new.count (word, topic) : Int) - old.count (word, topic)))
  total : ∀ topic, c'.total? topic = (c.total? topic).map fun n =>
    signed (n + ((List.range c.vocSize).map fun word =>
      (new.count (word, topic) : Int) - old.count (word, topic)).sum)
  row_sum : ∀ word, (c'.row? word).map Arithmetic.sum = (c.row? word).map Arithmetic.sum
  tokenCount : c'.tokenCount = c.tokenCount
  isConsistent : c'.isConsistent = c.isConsistent

/-- Tokens of the same words on top of the same counts. -/
theorem Counts.Extends.reassigned {base : Counts} {old new : List (Nat × Nat)}
    (h : c.Extends base old) (h' : c'.Extends base new)
    (hc : c.Stored) (hc' : c'.Stored) (hbase : base.Stored)
    (hin : Within base.vocSize base.topicNum old) (hin' : Within base.vocSize base.topicNum new)
    (hwords : new.map Prod.fst = old.map Prod.fst) : c.Reassigned c' old new := by
  have hV := h'.vocSize_eq.trans h.vocSize_eq.symm
  have hK := h'.topicNum_eq.trans h.topicNum_eq.symm
  have hlen : new.length = old.length := by
    rw [← List.length_map Prod.fst, hwords, List.length_map]
  have htokens : c'.tokenCount = c.tokenCount := by
    rw [h'.tokenCount hin', h.tokenCount hin, hlen]
  refine ⟨hV, hK, fun w hw k => ?_, fun k => ?_, fun w => ?_, htokens, ?_⟩
  · refine entry?_map
      (f := fun n => signed (n + ((new.count (w, k) : Int) - old.count (w, k)))) hV hK fun hr => ?_
    have hr' : c'.InRange w k := by rwa [InRange, hV, hK]
    rw [h.vocSize_eq] at hw
    have hk : k < base.topicNum := h.topicNum_eq ▸ hr.2
    refine Arithmetic.eq_signed_of_modEq (stored_iff.1 hc' w k hr') ?_
    refine (h'.entry_modEq w hw k hk).trans
      (Arithmetic.modEq_of_sub_eq (h.entry_modEq w hw k hk).symm ?_)
    omega
  · rw [total?, total?, hV]
    refine entry?_map (f := fun n => signed (n + ((List.range c.vocSize).map fun w =>
      (new.count (w, k) : Int) - old.count (w, k)).sum)) hV hK fun hr => ?_
    have hr' : c'.InRange c.vocSize k := by rwa [InRange, hV, hK]
    have hk : k < base.topicNum := h.topicNum_eq ▸ hr.2
    have hdiff : ((List.range base.vocSize).map fun w =>
        (new.count (w, k) : Int) - old.count (w, k)).sum + (old.map Prod.snd).count k =
          (new.map Prod.snd).count k := by
      rw [← sum_count_words hin', ← sum_count_words hin, ← List.sum_map_add]
      simp
    refine Arithmetic.eq_signed_of_modEq (stored_iff.1 hc' _ k hr') ?_
    rw [h.vocSize_eq]
    refine (h'.total_modEq k hk).trans (Arithmetic.modEq_of_sub_eq (h.total_modEq k hk).symm ?_)
    omega
  · rcases Nat.lt_trichotomy w base.vocSize with hw | rfl | hw
    · rw [h'.row_sum hin' hw, h.row_sum hin hw, hwords]
    · have htotals : ∀ {e : Counts}, e.vocSize = base.vocSize →
          (e.row? base.vocSize).map Arithmetic.sum = some e.tokenCount := fun {e} he => by
        rw [tokenCount_eq, ← he, row?_eq (Nat.le_refl _), Option.map_some, Arithmetic.sum_eq]
      rw [htotals h'.vocSize_eq, htotals h.vocSize_eq, htokens]
    · have hnone : ∀ {e : Counts}, e.vocSize = base.vocSize → e.row? w = none := fun {e} he =>
        if_neg (by omega)
      rw [hnone h'.vocSize_eq, hnone h.vocSize_eq]
  · rw [h'.isConsistent hin' hc' hbase, h.isConsistent hin hc hbase]

/-- In training the counts hold the new topics of a resampled document, of which its state need not
say how many it has. -/
theorem sample_reassigned (hc : c.Stored)
    (h : sample o .train sweeps d s c g = (.ok s', c', g')) :
    c.Reassigned c' (d.assigned s.assignment) (d.assigned s'.assignment) := by
  obtain ⟨-, ⟨hV, hK⟩, hwords, hstate⟩ := checkSample_ok_iff.1 (sample_ok h).1
  obtain ⟨-, hass, -, -, hlt⟩ := TopicState.check_ok_iff.1 hstate
  obtain ⟨hass', -, hlt'⟩ := sample_topics h
  have hc' : c'.Stored := by
    have hstored : (sample o .train sweeps d s c g).2.1.Stored := sample_stored hc
    rwa [h] at hstored
  have hin := Document.within_assigned hwords hlt
  have hin' := Document.within_assigned hwords hlt'
  rw [← hV, ← hK] at hin hin'
  obtain ⟨base, hbase, hext⟩ := Counts.exists_extends hc hin
  have hext' : c'.Extends base (d.assigned s'.assignment) := by
    rw [← List.append_nil (d.assigned _)] at hext ⊢
    exact sample_extends h hext
  rw [hext.vocSize_eq, hext.topicNum_eq] at hin hin'
  exact hext.reassigned hext' hc hc' hbase hin hin'
    ((Document.map_fst_assigned hwords hass').trans (Document.map_fst_assigned hwords hass).symm)

/-- One word of the generator is taken for each token in each pass. -/
theorem sample_after (h : sample o mode sweeps d s c g = (.ok s', c', g')) :
    g' = Generator.after (sweeps * d.tokenCount) g := by
  obtain ⟨hcheck, hcase⟩ := sample_ok h
  obtain ⟨-, -, hwords, -⟩ := checkSample_ok_iff.1 hcheck
  rcases hcase with ⟨hempty, -, -, rfl⟩ | hswept
  · rw [hempty, Nat.mul_zero]
    rfl
  · rw [sweepDocument_after hswept, Document.length_tokens hwords]

end

section
variable [Arithmetic]

/-- There is room for what a count of the state can become: no more than all of them count, and as
many tokens as the document has. -/
def TopicState.HasRoomToMove (s : TopicState) (d : Document) : Prop :=
  signed (s.counts.sum + d.tokenCount) = s.counts.sum + d.tokenCount

instance (s : TopicState) (d : Document) : Decidable (s.HasRoomToMove d) :=
  inferInstanceAs (Decidable (_ = _))

omit [Scalar α] in
/-- Then the counts of a state that passes the check have room and sum to the number of tokens. -/
theorem TopicState.HasRoomToMove.of_check {K : Nat} (hroom : s.HasRoomToMove d)
    (h : s.check (α := α) d K = .ok ()) :
    s.HasRoom d ∧ s.counts.sum = d.tokenCount ∧ Arithmetic.Stored s.counts := by
  obtain ⟨-, -, -, hnonneg, -⟩ := TopicState.check_ok_iff.1 h
  have hsum : 0 ≤ s.counts.sum := List.sum_nonneg hnonneg
  have hroom' : s.HasRoom d := ⟨Arithmetic.signed_eq_self_of_abs_le hroom (by omega) (by omega),
    Arithmetic.signed_eq_self_of_abs_le hroom (by omega) (by omega)⟩
  refine ⟨hroom', hroom'.sum_eq h, fun n hn => ?_⟩
  have hle := List.single_le_sum hnonneg n hn
  have hn := hnonneg n hn
  exact Arithmetic.signed_eq_self_of_abs_le hroom (by omega) (by omega)

/-- A resampled document has a topic for every token and the surplus it had before. -/
theorem sample_surplus (hroom : s.HasRoomToMove d)
    (h : sample o mode sweeps d s c g = (.ok s', c', g')) :
    s'.assignment.length = d.tokenCount ∧ s'.counts.length = o.topicNum ∧
      (∀ k ∈ s'.assignment, k < o.topicNum) ∧ ∀ k, s'.surplus k = s.surplus k := by
  obtain ⟨hass, hlen', hlt⟩ := sample_topics h
  obtain ⟨-, -, -, hstate⟩ := checkSample_ok_iff.1 (sample_ok h).1
  obtain ⟨hlen, hass', -, hnonneg, -⟩ := TopicState.check_ok_iff.1 hstate
  obtain ⟨⟨hsum, -⟩, -, hs⟩ := hroom.of_check hstate
  refine ⟨hass, hlen', hlt, fun k => ?_⟩
  rw [TopicState.surplus, TopicState.surplus]
  by_cases hk : k < o.topicNum
  · have hcount := sample_counts hs (.inr hsum) h hk
    have hk₁ : k < s.counts.length := by rwa [hlen]
    have hk₂ : k < s'.counts.length := by rwa [hlen']
    -- no topic gains or loses more tokens than there are
    have hgain : s'.assignment.count k ≤ d.tokenCount := hass ▸ List.count_le_length
    have hloss : s.assignment.count k ≤ d.tokenCount := hass' ▸ List.count_le_length
    have hle := List.single_le_sum hnonneg _ (List.getElem_mem hk₁)
    have hge := hnonneg _ (List.getElem_mem hk₁)
    rw [List.getD_eq_getElem _ _ hk₂, List.getD_eq_getElem _ _ hk₁,
      Arithmetic.signed_eq_self_of_abs_le hroom (by omega) (by omega)] at hcount
    rw [List.getElem?_eq_getElem hk₂, List.getElem?_eq_getElem hk₁, Option.map_some,
      Option.map_some, Option.some.injEq]
    omega
  · rw [List.getElem?_eq_none (by omega), List.getElem?_eq_none (by omega)]
    rfl

/-- The counts of a resampled document sum to its tokens. -/
theorem sum_sample (hroom : s.HasRoomToMove d)
    (h : sample o mode sweeps d s c g = (.ok s', c', g')) : s'.counts.sum = d.tokenCount := by
  obtain ⟨hass', hlen', hlt', hsurplus⟩ := sample_surplus hroom h
  obtain ⟨-, -, -, hstate⟩ := checkSample_ok_iff.1 (sample_ok h).1
  obtain ⟨hlen, hass, -, -, hlt⟩ := TopicState.check_ok_iff.1 hstate
  rw [← (hroom.of_check hstate).2.1, TopicState.sum_counts hlen' hlt',
    TopicState.sum_counts hlen hlt, hass, hass']
  simp only [hsurplus]

/-- Only the sign of a count can be wrong with a resampled document. -/
theorem check_sample_iff (hroom : s.HasRoomToMove d)
    (h : sample o mode sweeps d s c g = (.ok s', c', g')) :
    s'.check (α := α) d o.topicNum = .ok () ↔ ∀ n ∈ s'.counts, 0 ≤ n := by
  obtain ⟨hass, hlen, hlt, -⟩ := sample_surplus hroom h
  have hsum : Arithmetic.sum s'.counts = signed d.tokenCount := by
    rw [Arithmetic.sum_eq, sum_sample hroom h]
  rw [TopicState.check_ok_iff]
  tauto

/-- If there is room for what its counts can become, what is left of a document passes the check
again just if every topic has tokens enough to make up for what its count fell short of. Otherwise
the sum is right and a count is negative. A state that fits its document always passes. -/
theorem sample_check (hroom : s.HasRoomToMove d)
    (h : sample o mode sweeps d s c g = (.ok s', c', g')) :
    (s'.check (α := α) d o.topicNum = .ok () ↔ ∀ k < o.topicNum,
      (s.assignment.count k : Int) ≤ s.counts.getD k 0 + s'.assignment.count k) ∧
    (s'.check (α := α) d o.topicNum ≠ .ok () → s'.check (α := α) d o.topicNum =
      .error (.topicCountSum d.id d.tokenCount d.tokenCount)) ∧
    (s.Fits d o.topicNum → s'.check (α := α) d o.topicNum = .ok ()) := by
  obtain ⟨hass', hlen', -, hsurplus⟩ := sample_surplus hroom h
  obtain ⟨-, -, -, hstate⟩ := checkSample_ok_iff.1 (sample_ok h).1
  have hlen := (TopicState.check_ok_iff.1 hstate).1
  obtain ⟨⟨-, htokens⟩, -⟩ := hroom.of_check hstate
  refine ⟨?_, fun hbad => ?_, fun hfits => (sample_fits hfits h).check⟩
  · rw [check_sample_iff hroom h, TopicState.nonneg_iff hlen']
    refine forall₂_congr fun k hk => ?_
    rw [TopicState.getD_counts (hlen.symm ▸ hk), hsurplus k]
    omega
  · have hany : s'.counts.any (· < 0) = true := by
      by_contra hnone
      apply hbad
      apply (check_sample_iff hroom h).2
      simpa using hnone
    rw [TopicState.check, if_neg (not_not.2 hlen'), if_neg (not_not.2 hass'),
      if_pos (.inr hany), Arithmetic.sum_eq, sum_sample hroom h, htokens]

end

/-- A state that counts its only token for the wrong topic: what is left of it passes the check
again if the token stays in its topic, and does not if the token moves. -/
theorem sample_check_two_draws :
    let o : Options Float := ⟨1, 2, 2, 1⟩
    let d : Document := ⟨0, [0], [1]⟩
    let s : TopicState := ⟨[0, 1], [0]⟩
    let c : Counts := ⟨1, 2, #[1, 0, 1, 0], rfl⟩
    let stay : Scripted Xoshiro := ⟨[0], Xoshiro.ofSeed 0⟩
    let move : Scripted Xoshiro := ⟨[0xFFFFFFFFFFFFFFFF], Xoshiro.ofSeed 0⟩
    s.HasRoomToMove d ∧
    ∃ s₁ s₂, (sample o .train 1 d s c stay).1 = .ok s₁ ∧ s₁.check (α := Float) d 2 = .ok () ∧
      (sample o .train 1 d s c move).1 = .ok s₂ ∧
      s₂.check (α := Float) d 2 = .error (.topicCountSum 0 1 1) := by
  intro o d s c stay move
  have hroom : s.HasRoomToMove d := by decide
  have hstay : (sample o .train 1 d s c stay).1 = .ok ⟨[0, 1], [0]⟩ := by decide +kernel
  have hmove : (sample o .train 1 d s c move).1 = .ok ⟨[-1, 2], [1]⟩ := by decide +kernel
  obtain ⟨c₁, g₁, h⟩ := Sampled.exists_eq hstay
  obtain ⟨c₂, g₂, h'⟩ := Sampled.exists_eq hmove
  obtain ⟨hcheck, -, -⟩ := sample_check hroom h
  obtain ⟨hcheck', herror, -⟩ := sample_check hroom h'
  refine ⟨hroom, _, _, hstay, hcheck.2 (by decide), hmove, herror fun hok => ?_⟩
  exact absurd (hcheck'.1 hok) (by decide)

/-- A checked state of valid options from which a count of minus one is left. -/
theorem sample_leaves_negative :
    let o : Options Float := ⟨1, 2, 2, 1⟩
    let d : Document := ⟨0, [0], [1]⟩
    let s : TopicState := ⟨[0, 1], [0]⟩
    let c : Counts := ⟨1, 2, #[1, 0, 1, 0], rfl⟩
    let g : Scripted Xoshiro := ⟨[0xFFFFFFFFFFFFFFFF], Xoshiro.ofSeed 0⟩
    o.check = .ok () ∧ s.check (α := Float) d 2 = .ok () ∧
      (sample o .train 1 d s c g).1 = .ok ⟨[-1, 2], [1]⟩ ∧
      TopicState.check (α := Float) ⟨[-1, 2], [1]⟩ d 2 = .error (.topicCountSum 0 1 1) := by
  decide +kernel

/-! ## Counts in exact arithmetic -/

/-- A weight read from counts that are not negative is positive only for more than `-alpha` tokens
of the document. -/
theorem alpha_lt_of_proper {o : Options ℝ} (ho : o.check = .ok ()) {inDocument ofWord ofTopic : Int}
    (hw : 0 ≤ ofWord) (ht : 0 ≤ ofTopic)
    (h : Scalar.isProper (conditional o inDocument ofWord ofTopic) = true) :
    -o.alpha < inDocument := by
  obtain ⟨-, hbeta, hV, -⟩ := Model.check_ok_iff.1 ho
  rw [isProper_iff] at hbeta h
  have hw : (0 : ℝ) ≤ ofWord := Int.cast_nonneg hw
  have ht : (0 : ℝ) ≤ ofTopic := Int.cast_nonneg ht
  have hV : (0 : ℝ) < ((o.vocSize : ℤ) : ℝ) := by exact_mod_cast hV
  have hword : (0 : ℝ) < ofWord + o.beta := by positivity
  have htopic : (0 : ℝ) < ofTopic + ((o.vocSize : ℤ) : ℝ) * o.beta := by positivity
  have hproduct : (0 : ℝ) < (inDocument + o.alpha) * (ofWord + o.beta) :=
    (div_pos_iff_of_pos_right htopic).1 h
  have hsum : (0 : ℝ) < inDocument + o.alpha := (mul_pos_iff_of_pos_right hword).1 hproduct
  linarith

section
open scoped Exact

variable {o : Options ℝ} {c c' : Counts}

theorem resampleToken_counts_gt (ho : o.check = .ok ()) (htc : tc.length = o.topicNum)
    (h : resampleToken o mode word old tc c g = (.ok (new, tc'), c', g')) :
    ∀ n ∈ tc', -o.alpha < n := by
  obtain ⟨total, hweights⟩ := resampleToken_weights h
  obtain ⟨-, rfl, -, -⟩ := resampleToken_ok h
  simp only [Arithmetic.signed_exact] at hweights ⊢
  -- without the token every count has been the first factor of a weight
  have hout : ∀ n ∈ tc.modify old (· - 1), -o.alpha < n := by
    intro n hn
    obtain ⟨j, hj, rfl⟩ := List.mem_iff_getElem.1 hn
    have hjK : j < o.topicNum := by simpa [htc] using hj
    obtain ⟨x, hx, hword, htopic, hproper⟩ := weightsFrom_ok hweights j hjK
    rw [List.getElem?_eq_getElem hj, Option.some.injEq] at hx
    rw [hx]
    exact alpha_lt_of_proper ho hword htopic hproper
  intro n hn
  obtain ⟨j, hj, rfl⟩ := List.mem_iff_getElem.1 hn
  have hj' : j < (tc.modify old (· - 1)).length := by simpa using hj
  have hlt := hout _ (List.getElem_mem hj')
  rw [List.getElem_modify]
  split
  · push_cast
    linarith
  · exact hlt

theorem sweepTokens_counts_gt (ho : o.check = .ok ()) : ∀ {tokens topics news : List Nat}
    {tc tc' : List Int} {c c' : Counts} {g g' : γ}, tc.length = o.topicNum →
    (∀ n ∈ tc, -o.alpha < n) →
    sweepTokens o mode tokens topics tc c g = (.ok (news, tc'), c', g') → ∀ n ∈ tc', -o.alpha < n
  | [], _, _, _, _, _, _, _, _, _, htc, h => by
    rw [sweepTokens] at h
    cases h
    exact htc
  | _ :: _, [], _, _, _, _, _, _, _, _, _, h => by
    rw [sweepTokens] at h
    cases h
  | word :: tokens, old :: topics, _, tc, _, _, _, _, _, hlen, _, h => by
    obtain ⟨new, rest, tc₁, c₁, g₁, hone, hrest, rfl⟩ := sweepTokens_cons_ok h
    have hgt := resampleToken_counts_gt ho hlen hone
    obtain ⟨-, rfl, -, -⟩ := resampleToken_ok hone
    exact sweepTokens_counts_gt ho (by simpa using hlen) hgt hrest

theorem sweepDocument_counts_gt (ho : o.check = .ok ()) {tokens : List Nat} : ∀ {n : Nat}
    {s s' : TopicState} {c c' : Counts} {g g' : γ}, s.counts.length = o.topicNum →
    (∀ n ∈ s.counts, -o.alpha < n) →
    sweepDocument o mode tokens n s c g = (.ok s', c', g') → ∀ n ∈ s'.counts, -o.alpha < n
  | 0, _, _, _, _, _, _, _, hgt, h => by
    rw [sweepDocument] at h
    cases h
    exact hgt
  | _ + 1, _, _, _, _, _, _, hlen, hgt, h => by
    obtain ⟨news, tc, c₁, g₁, hpass, hrest⟩ := sweepDocument_succ_ok h
    exact sweepDocument_counts_gt ho ((sweepTokens_sizes hpass).1.trans hlen)
      (sweepTokens_counts_gt ho hlen hgt hpass) hrest

/-- No count of a resampled document is `-alpha` or less. -/
theorem sample_counts_gt (ho : o.check = .ok ())
    (h : sample o mode sweeps d s c g = (.ok s', c', g')) : ∀ n ∈ s'.counts, -o.alpha < n := by
  obtain ⟨hcheck, hcase⟩ := sample_ok h
  obtain ⟨-, -, -, hstate⟩ := checkSample_ok_iff.1 hcheck
  obtain ⟨hlen, -, -, hneg, -⟩ := TopicState.check_ok_iff.1 hstate
  have halpha := isProper_iff.1 (Model.check_ok_iff.1 ho).1
  have hgt : ∀ n ∈ s.counts, -o.alpha < n := fun n hn => by
    have hn : (0 : ℝ) ≤ n := Int.cast_nonneg (hneg n hn)
    linarith
  rcases hcase with ⟨hempty, rfl, -, -⟩ | hswept
  · obtain rfl := TopicState.eq_empty hstate hempty rfl
    exact hgt
  · exact sweepDocument_counts_gt ho hlen hgt hswept

/-- With a concentration of at most one, what is left of a document passes the check again, also
where its state disagreed with its topics. -/
theorem sample_check_of_alpha_le (ho : o.check = .ok ()) (halpha : o.alpha ≤ 1)
    (h : sample o mode sweeps d s c g = (.ok s', c', g')) :
    s'.check (α := ℝ) d o.topicNum = .ok () := by
  rw [check_sample_iff (Arithmetic.signed_exact _) h]
  intro n hn
  have hgt := sample_counts_gt ho h n hn
  have hgt : (-1 : ℝ) < n := by linarith
  have hgt : -1 < n := by exact_mod_cast hgt
  omega

end

end TopicModel
