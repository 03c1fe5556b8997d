import Mathlib
import TopicModel.Proofs.TopicState
import TopicModel.Sampler

/-!
# What resampling does

One lemma for each layer of the sampler, from the weights of a token up to `sample`:

* Weights fail just where one is not proper or was read from a negative count, and the failure
  names its topic (`weightsFrom_error`); otherwise `weightsFrom_read` says what each of them was
  computed from. A draw is an index of the weights (`inverseCdf_lt`).
* Resampling a token takes it out of its topic and puts it into another one (`resampleToken_ok`) and
  fails only by its weights (`resampleToken_error`), with the token taken out
  (`resampleToken_failed`). So a pass changes the number of tokens of each topic, in the document
  (`sweepTokens_modEq`) and in counts that move along (`sweepTokens_extends`), exactly as the topics
  of the tokens change. It takes one word of the generator for each token (`sweepTokens_after`).
* What moving one token keeps is kept by `sample`, also where it fails (`sample_keeps`).
* `sample_fits`, `sample_extends`: what is left of a resampled document fits it again, and in
  training the counts hold its new topics in place of the old ones.

Numbers are what an arithmetic stores of them. The counts of a state that fits its document have
room, since none of them exceeds the number of tokens.
-/

namespace TopicModel

open Arithmetic (modulus signed Stored)

/-! ## The words of a generator -/

namespace Generator

variable {γ : Type} [Generator γ]

/-- The generator after so many words were taken from it. -/
def after : Nat → γ → γ
  | 0, g => g
  | n + 1, g => after n (next g).2

/-- The word that comes after so many others. -/
def word (i : Nat) (g : γ) : UInt64 := (next (after i g)).1

theorem after_add : ∀ (m n : Nat) (g : γ), after (m + n) g = after n (after m g)
  | 0, n, g => by rw [Nat.zero_add, after]
  | m + 1, n, g => by rw [Nat.succ_add, after, after, after_add m]

end Generator

variable {α γ : Type} [Scalar α] [Generator γ] {o : Options α} {mode : SampleMode}
  {word old new sweeps : Nat} {tc tc' : List Int} {c c' : Counts} {g g' : γ}

omit [Scalar α] [Generator γ] in
theorem Sampled.exists_eq {τ : Type} {r : Sampled α γ τ} {x : Outcome α τ} (h : r.1 = x) :
    ∃ c g, r = (x, c, g) := ⟨r.2.1, r.2.2, Prod.ext h rfl⟩

/-! ## Weights and draws -/

theorem length_weightsFrom {sum : α} : ∀ {n topic : Nat} {tc : List Int} {total : α}
    {weights : List α}, weightsFrom o c word n topic tc total = (weights, .ok sum) →
    weights.length = n
  | 0, _, _, _, _, h => by
    rw [weightsFrom] at h
    cases h
    rfl
  | n + 1, topic, tc, total, weights, h => by
    unfold weightsFrom at h
    split at h
    · dsimp only at h
      split at h
      · cases h
      · obtain ⟨rfl, hsum⟩ := Prod.mk.inj h
        exact congrArg (· + 1) (length_weightsFrom (Prod.ext rfl hsum))
    · cases h

/-- Weights that exist fail only at the first topic whose weight is not proper or was read from a
negative count, and the failure names it. -/
theorem weightsFrom_error {e : Failure α} (hw : word ≤ c.vocSize) :
    ∀ {n topic : Nat} {tc : List Int} {total : α}, tc.length = n → topic + n ≤ c.topicNum →
    (weightsFrom o c word n topic tc total).2 = .error e →
    ∃ j x, tc[j]? = some x ∧
      (c.value word (topic + j) < 0 ∨ c.value c.vocSize (topic + j) < 0 ∨
        Scalar.isProper
          (conditional o x (c.value word (topic + j)) (c.value c.vocSize (topic + j))) = false) ∧
      (∀ i < j, 0 ≤ c.value word (topic + i) ∧ 0 ≤ c.value c.vocSize (topic + i)) ∧
      e = .error (.degenerateWeights word (topic + j)
        (conditional o x (c.value word (topic + j)) (c.value c.vocSize (topic + j))))
  | 0, _, _, _, _, _, h => by rw [weightsFrom] at h; cases h
  | n + 1, topic, [], _, hlen, _, _ => by cases hlen
  | n + 1, topic, x :: tc, total, hlen, hk, h => by
    have hr : c.InRange word topic := ⟨hw, by omega⟩
    simp only [weightsFrom, Counts.entry?_eq hr, Counts.total?_eq hr.2] at h
    split at h
    · rename_i hbad
      refine ⟨0, x, rfl, ?_, fun i hi => absurd hi (Nat.not_lt_zero i), ?_⟩
      · simpa using hbad
      · cases h; rfl
    · rename_i hgood
      obtain ⟨j, y, hj, hbad, hbefore, he⟩ :=
        weightsFrom_error hw (Nat.succ.inj hlen) (by omega) h
      rw [show topic + 1 + j = topic + (j + 1) by omega] at hbad he
      refine ⟨j + 1, y, hj, hbad, fun i hi => ?_, he⟩
      cases i with
      | zero =>
        exact ⟨Int.not_lt.1 fun hneg => hgood (.inl hneg),
          Int.not_lt.1 fun hneg => hgood (.inr (.inl hneg))⟩
      | succ i =>
        have hi := hbefore i (Nat.lt_of_succ_lt_succ hi)
        rwa [show topic + 1 + i = topic + (i + 1) by omega] at hi

/-- What each weight was computed from, and the total that is handed on. -/
theorem weightsFrom_read {sum : α} : ∀ {n topic : Nat} {tc : List Int} {total : α}
    {weights : List α}, weightsFrom o c word n topic tc total = (weights, .ok sum) →
    sum = weights.foldl (· + ·) total ∧
      ∀ j < n, ∃ inDocument ofWord ofTopic, tc[j]? = some inDocument ∧
        c.entry? word (topic + j) = some ofWord ∧ c.total? (topic + j) = some ofTopic ∧
        weights[j]? = some (conditional o inDocument ofWord ofTopic) ∧ 0 ≤ ofWord ∧ 0 ≤ ofTopic ∧
        Scalar.isProper (conditional o inDocument ofWord ofTopic) = true
  | 0, _, _, _, _, h => by
    rw [weightsFrom] at h
    cases h
    exact ⟨rfl, fun j hj => absurd hj (Nat.not_lt_zero j)⟩
  | n + 1, topic, tc, total, weights, h => by
    unfold weightsFrom at h
    split at h
    · rename_i inDocument tc ofWord ofTopic hword htopic
      dsimp only at h
      split at h
      · cases h
      · rename_i hgood
        obtain ⟨rfl, hsum⟩ := Prod.mk.inj h
        obtain ⟨hfold, hrest⟩ := weightsFrom_read (Prod.ext rfl hsum)
        refine ⟨hfold, fun j hj => ?_⟩
        cases j with
        | zero => exact ⟨inDocument, ofWord, ofTopic, rfl, hword, htopic, rfl, by simpa using hgood⟩
        | succ j =>
          obtain ⟨x, w, t, hx, hw, ht, hrest⟩ := hrest j (Nat.lt_of_succ_lt_succ hj)
          rw [show topic + 1 + j = topic + (j + 1) by omega] at hw ht
          exact ⟨x, w, t, hx, hw, ht, hrest⟩
    · cases h

/-- Weights that do not fail are proper and were read from counts that are not negative. -/
theorem weightsFrom_ok {sum : α} {n topic : Nat} {tc : List Int} {total : α}
    (h : (weightsFrom o c word n topic tc total).2 = .ok sum) (j : Nat) (hj : j < n) :
    ∃ x, tc[j]? = some x ∧ 0 ≤ c.value word (topic + j) ∧ 0 ≤ c.value c.vocSize (topic + j) ∧
      Scalar.isProper
        (conditional o x (c.value word (topic + j)) (c.value c.vocSize (topic + j))) = true := by
  obtain ⟨-, hread⟩ := weightsFrom_read (Prod.ext rfl h)
  obtain ⟨x, ofWord, ofTopic, hx, hword, htopic, -, hproper⟩ := hread j hj
  have hw : c.value word (topic + j) = ofWord := by rw [Counts.value, hword]; rfl
  have ht : c.value c.vocSize (topic + j) = ofTopic := by
    rw [Counts.value, ← Counts.total?, htopic]; rfl
  exact ⟨x, hx, hw ▸ ht ▸ hproper⟩

theorem firstAbove?_lt {u : α} : ∀ {weights : List α} {acc : α} {k i : Nat},
    firstAbove? u weights acc k = some i → i < k + weights.length
  | [], _, _, _, h => by cases h
  | w :: ws, acc, k, i, h => by
    rw [firstAbove?] at h
    split at h
    · cases h
      simp
    · have := firstAbove?_lt h
      simp only [List.length_cons]
      omega

/-- A draw is the index of a weight. -/
theorem inverseCdf_lt {weights : List α} {u : α} (h : weights ≠ []) :
    inverseCdf weights u < weights.length := by
  have hpos : 0 < weights.length := List.length_pos_iff.2 h
  rw [inverseCdf]
  cases hf : firstAbove? u weights Scalar.zero 0 with
  | none => simp only [Option.getD_none]; omega
  | some i =>
    have := firstAbove?_lt hf
    simp only [Option.getD_some]
    omega

/-! ## One token -/

section
variable [Arithmetic]

/-- A resampled token has left its old topic and joined the new one, in the document and in counts
that move along. -/
theorem resampleToken_ok
    (h : resampleToken o mode word old tc c g = (.ok (new, tc'), c', g')) :
    new < tc.length ∧
      tc' = (tc.modify old fun n => signed (n - 1)).modify new (fun n => signed (n + 1)) ∧
      c' = mode.move (mode.move c word old (-1)) word new 1 ∧
      mode.CanMove tc c word old := by
  unfold resampleToken at h
  split at h
  · rename_i hold
    dsimp only at h
    split at h
    · cases h
    · split at h
      · rename_i hnew
        cases h
        have hlt := hnew.1
        rw [List.length_modify] at hlt
        exact ⟨hlt, rfl, rfl, hold⟩
      · cases h
  · cases h

/-- A token is resampled by weights that exist. -/
theorem resampleToken_weights
    (h : resampleToken o mode word old tc c g = (.ok (new, tc'), c', g')) :
    ∃ total, (topicWeights o (mode.move c word old (-1)) word o.topicNum
      (tc.modify old fun n => signed (n - 1))).2 = .ok total := by
  unfold resampleToken at h
  split at h
  · dsimp only at h
    split at h
    · cases h
    · rename_i weights total hweights
      exact ⟨total, congrArg Prod.snd hweights⟩
  · cases h

/-- A resampled token has taken one word. -/
theorem resampleToken_after {x : Nat × List Int}
    (h : resampleToken o mode word old tc c g = (.ok x, c', g')) : g' = (Generator.next g).2 := by
  unfold resampleToken at h
  split at h
  · dsimp only at h
    split at h
    · cases h
    · split at h
      · cases h
        rfl
      · cases h
  · cases h

@[simp] theorem SampleMode.vocSize_move (n : Int) :
    (mode.move c word old n).vocSize = c.vocSize := by
  cases mode <;> simp [move]

@[simp] theorem SampleMode.topicNum_move (n : Int) :
    (mode.move c word old n).topicNum = c.topicNum := by
  cases mode <;> simp [move]

/-- Where the counts have the dimensions of the options, a token of a topic in range fails only by
its weights: what is drawn from weights that exist can be put back in. -/
theorem resampleToken_error {e : Failure α} (hword : word < o.vocSize)
    (hV : c.vocSize = o.vocSize) (hK : c.topicNum = o.topicNum) (htc : tc.length = o.topicNum)
    (hold : old < o.topicNum) (h : (resampleToken o mode word old tc c g).1 = .error e) :
    (topicWeights o (mode.move c word old (-1)) word o.topicNum
      (tc.modify old fun n => signed (n - 1))).2 = .error e := by
  have hmove : mode.CanMove tc c word old := ⟨by omega, fun _ => ⟨by omega, by omega⟩⟩
  rw [resampleToken, if_pos hmove] at h
  dsimp only at h
  rcases hw : topicWeights o (mode.move c word old (-1)) word o.topicNum
    (tc.modify old fun n => signed (n - 1)) with ⟨weights, e' | total⟩
  · rw [hw] at h
    cases h
    rfl
  · have hlen : weights.length = o.topicNum := length_weightsFrom hw
    have hdraw : (categorical weights total g).1 < o.topicNum := by
      rw [← hlen]
      exact inverseCdf_lt (List.ne_nil_of_length_pos (by omega))
    have hnew : mode.CanMove (tc.modify old fun n => signed (n - 1))
        (mode.move c word old (-1)) word (categorical weights total g).1 := by
      refine ⟨by rwa [List.length_modify, htc], fun _ => ⟨?_, ?_⟩⟩
      · rw [SampleMode.vocSize_move]
        omega
      · rwa [SampleMode.topicNum_move, hK]
    rw [hw] at h
    dsimp only at h
    rw [if_pos hnew] at h
    cases h

/-- A token that fails was taken out of its topic and nothing else was done: no word was drawn. -/
theorem resampleToken_failed {e : Failure α} (hword : word < o.vocSize)
    (hV : c.vocSize = o.vocSize) (hK : c.topicNum = o.topicNum) (htc : tc.length = o.topicNum)
    (hold : old < o.topicNum)
    (h : resampleToken o mode word old tc c g = (.error e, c', g')) :
    c' = mode.move c word old (-1) ∧ g' = g ∧
      ∃ topic weight, e = .error (.degenerateWeights word topic weight) := by
  have hweights := resampleToken_error hword hV hK htc hold (congrArg Prod.fst h)
  obtain ⟨topic, x, -, -, -, he⟩ := weightsFrom_error
    (by rw [SampleMode.vocSize_move]; omega) (by rw [List.length_modify, htc])
    (by rw [SampleMode.topicNum_move]; omega) hweights
  have hmove : mode.CanMove tc c word old := ⟨by omega, fun _ => ⟨by omega, by omega⟩⟩
  rw [resampleToken, if_pos hmove] at h
  dsimp only at h
  split at h
  · cases h
    exact ⟨rfl, rfl, _, _, he⟩
  · rename_i htotal
    rw [htotal] at hweights
    cases hweights

omit [Arithmetic] in
theorem getD_modify {f : Int → Int} {i k : Nat} (hk : k < tc.length) :
    (tc.modify i f).getD k 0 = if k = i then f (tc.getD k 0) else tc.getD k 0 := by
  rw [List.getD_eq_getElem?_getD, List.getElem?_modify, List.getD_eq_getElem?_getD,
    List.getElem?_eq_getElem hk]
  grind

/-- A token is moved from one count to another one. -/
theorem getD_move_modEq {k : Nat} (hk : k < tc.length) :
    ((tc.modify old fun n => signed (n - 1)).modify new fun n => signed (n + 1)).getD k 0 ≡
      tc.getD k 0 + ((if k = new then 1 else 0) - if k = old then 1 else 0) [ZMOD modulus] := by
  have hout : (tc.modify old fun n => signed (n - 1)).getD k 0 ≡
      tc.getD k 0 - (if k = old then 1 else 0) [ZMOD modulus] := by
    rw [getD_modify hk]
    split
    · exact Arithmetic.signed_modEq _
    · rw [Int.sub_zero]
  rw [getD_modify (by rwa [List.length_modify])]
  split
  · refine (Arithmetic.signed_modEq _).trans (Arithmetic.modEq_of_sub_eq hout ?_)
    omega
  · refine Arithmetic.modEq_of_sub_eq hout ?_
    omega

/-! ## One pass -/

theorem sweepTokens_cons_ok {tokens topics news : List Nat}
    (h : sweepTokens o mode (word :: tokens) (old :: topics) tc c g = (.ok (news, tc'), c', g')) :
    ∃ new rest tc₁ c₁ g₁, resampleToken o mode word old tc c g = (.ok (new, tc₁), c₁, g₁) ∧
      sweepTokens o mode tokens topics tc₁ c₁ g₁ = (.ok (rest, tc'), c', g') ∧
      news = new :: rest := by
  rw [sweepTokens] at h
  split at h
  · cases h
  · rename_i new tc₁ c₁ g₁ hone
    split at h
    · cases h
    · rename_i rest tc₂ c₂ g₂ hrest
      cases h
      exact ⟨new, rest, tc₁, c₁, g₁, hone, hrest, rfl⟩

theorem sweepTokens_cons_error {e : Failure α} {tokens topics : List Nat} {tc : List Int}
    (h : sweepTokens o mode (word :: tokens) (old :: topics) tc c g = (.error e, c', g')) :
    resampleToken o mode word old tc c g = (.error e, c', g') ∨
      ∃ new tc₁ c₁ g₁, resampleToken o mode word old tc c g = (.ok (new, tc₁), c₁, g₁) ∧
        sweepTokens o mode tokens topics tc₁ c₁ g₁ = (.error e, c', g') := by
  rw [sweepTokens] at h
  split at h
  · rename_i hone
    cases h
    exact .inl hone
  · rename_i new tc₁ c₁ g₁ hone
    split at h
    · rename_i hrest
      cases h
      exact .inr ⟨new, tc₁, c₁, g₁, hone, hrest⟩
    · cases h

/-- A pass keeps the number of the document's counts and the dimensions of the others. -/
theorem sweepTokens_sizes : ∀ {tokens topics news : List Nat} {tc tc' : List Int} {c c' : Counts}
    {g g' : γ}, sweepTokens o mode tokens topics tc c g = (.ok (news, tc'), c', g') →
    tc'.length = tc.length ∧ c'.vocSize = c.vocSize ∧ c'.topicNum = c.topicNum
  | [], _, _, _, _, _, _, _, _, h => by
    rw [sweepTokens] at h
    cases h
    exact ⟨rfl, rfl, rfl⟩
  | _ :: _, [], _, _, _, _, _, _, _, h => by
    rw [sweepTokens] at h
    cases h
  | word :: tokens, old :: topics, _, _, _, _, _, _, _, h => by
    obtain ⟨new, rest, tc₁, c₁, g₁, hone, hrest, rfl⟩ := sweepTokens_cons_ok h
    obtain ⟨-, rfl, rfl, -⟩ := resampleToken_ok hone
    simpa using sweepTokens_sizes hrest

/-- A pass takes one word for each token. -/
theorem sweepTokens_after : ∀ {tokens topics news : List Nat} {tc tc' : List Int} {c c' : Counts}
    {g g' : γ}, sweepTokens o mode tokens topics tc c g = (.ok (news, tc'), c', g') →
    g' = Generator.after tokens.length g
  | [], _, _, _, _, _, _, _, _, h => by
    rw [sweepTokens] at h
    cases h
    rfl
  | _ :: _, [], _, _, _, _, _, _, _, h => by
    rw [sweepTokens] at h
    cases h
  | word :: tokens, old :: topics, _, _, _, _, _, _, _, h => by
    obtain ⟨new, rest, tc₁, c₁, g₁, hone, hrest, rfl⟩ := sweepTokens_cons_ok h
    rw [sweepTokens_after hrest, resampleToken_after hone]
    rfl

/-- A pass gives every token a topic. -/
theorem sweepTokens_topics : ∀ {tokens topics news : List Nat} {tc tc' : List Int} {c c' : Counts}
    {g g' : γ}, tokens.length = topics.length →
    sweepTokens o mode tokens topics tc c g = (.ok (news, tc'), c', g') →
    news.length = topics.length ∧ ∀ k ∈ news, k < tc.length
  | [], [], _, _, _, _, _, _, _, _, h => by
    rw [sweepTokens] at h
    cases h
    simp
  | word :: tokens, old :: topics, news, tc, tc', c, c', g, g', hlen, h => by
    obtain ⟨new, rest, tc₁, c₁, g₁, hone, hrest, rfl⟩ := sweepTokens_cons_ok h
    obtain ⟨hnew, rfl, -, -⟩ := resampleToken_ok hone
    obtain ⟨hl, hlt⟩ := sweepTokens_topics (Nat.succ.inj hlen) hrest
    rw [List.length_modify, List.length_modify] at hlt
    exact ⟨congrArg (· + 1) hl, List.forall_mem_cons.2 ⟨hnew, hlt⟩⟩

/-- A pass changes each count of the document by as much as the number of tokens with its topic. -/
theorem sweepTokens_modEq {k : Nat} : ∀ {tokens topics news : List Nat} {tc tc' : List Int}
    {c c' : Counts} {g g' : γ}, tokens.length = topics.length → k < tc.length →
    sweepTokens o mode tokens topics tc c g = (.ok (news, tc'), c', g') →
    tc'.getD k 0 ≡ tc.getD k 0 + ((news.count k : Int) - topics.count k) [ZMOD modulus]
  | [], [], _, _, _, _, _, _, _, _, _, h => by
    rw [sweepTokens] at h
    cases h
    simp
  | word :: tokens, old :: topics, news, tc, tc', c, c', g, g', hlen, hk, h => by
    obtain ⟨new, rest, tc₁, c₁, g₁, hone, hrest, rfl⟩ := sweepTokens_cons_ok h
    obtain ⟨-, rfl, -, -⟩ := resampleToken_ok hone
    have hpass := sweepTokens_modEq (Nat.succ.inj hlen)
      (by rwa [List.length_modify, List.length_modify]) hrest
    have hmoved : ((tc.modify old fun n => signed (n - 1)).modify new fun n =>
        signed (n + 1)).getD k 0 ≡ _ [ZMOD modulus] := getD_move_modEq hk
    refine hpass.trans (Arithmetic.modEq_of_sub_eq hmoved ?_)
    rw [Counts.natCast_count_cons, Counts.natCast_count_cons]
    omega

theorem sweepTokens_stored : ∀ {tokens topics news : List Nat} {tc tc' : List Int} {c c' : Counts}
    {g g' : γ}, Stored tc →
    sweepTokens o mode tokens topics tc c g = (.ok (news, tc'), c', g') → Stored tc'
  | [], _, _, _, _, _, _, _, _, hs, h => by
    rw [sweepTokens] at h
    cases h
    exact hs
  | _ :: _, [], _, _, _, _, _, _, _, _, h => by
    rw [sweepTokens] at h
    cases h
  | word :: tokens, old :: topics, _, _, _, _, _, _, _, hs, h => by
    obtain ⟨new, rest, tc₁, c₁, g₁, hone, hrest, rfl⟩ := sweepTokens_cons_ok h
    obtain ⟨-, rfl, -, -⟩ := resampleToken_ok hone
    exact sweepTokens_stored (Arithmetic.stored_modify (Arithmetic.stored_modify hs)) hrest

/-- In training the counts hold the new topics of the tokens in place of the old ones. -/
theorem sweepTokens_extends {base : Counts} : ∀ {tokens topics news : List Nat}
    {others : List (Nat × Nat)} {tc tc' : List Int} {c c' : Counts} {g g' : γ},
    sweepTokens o .train tokens topics tc c g = (.ok (news, tc'), c', g') →
    (∀ w ∈ tokens, w < base.vocSize) → tc.length = base.topicNum →
    c.Extends base (tokens.zip topics ++ others) → c'.Extends base (tokens.zip news ++ others)
  | [], _, _, _, _, _, _, _, _, _, h, _, _, hext => by
    rw [sweepTokens] at h
    cases h
    exact hext
  | _ :: _, [], _, _, _, _, _, _, _, _, h, _, _, _ => by
    rw [sweepTokens] at h
    cases h
  | word :: tokens, old :: topics, news, others, tc, tc', c, c', g, g', h, hw, htc, hext => by
    obtain ⟨new, rest, tc₁, c₁, g₁, hone, hrest, rfl⟩ := sweepTokens_cons_ok h
    obtain ⟨hnew, rfl, rfl, hold, -⟩ := resampleToken_ok hone
    have hword : word < base.vocSize := hw word List.mem_cons_self
    have hout : (c.decrement word old).Extends base (tokens.zip topics ++ others) :=
      hext.decrement hword (by omega)
    have hin : ((c.decrement word old).increment word new).Extends base
        ((word, new) :: (tokens.zip topics ++ others)) := hout.increment hword (by omega)
    -- for the rest of the pass the new token is one of the others
    have htail := sweepTokens_extends hrest (fun w h => hw w (List.mem_cons_of_mem _ h))
      (by rw [List.length_modify, List.length_modify, htc]) (hin.perm List.perm_middle.symm)
    exact htail.perm List.perm_middle

/-! ## A document -/

theorem sweepDocument_succ_ok {tokens : List Nat} {n : Nat} {s s' : TopicState}
    (h : sweepDocument o mode tokens (n + 1) s c g = (.ok s', c', g')) :
    ∃ assignment tc₁ c₁ g₁,
      sweepTokens o mode tokens s.assignment s.counts c g = (.ok (assignment, tc₁), c₁, g₁) ∧
      sweepDocument o mode tokens n ⟨tc₁, assignment⟩ c₁ g₁ = (.ok s', c', g') := by
  rw [sweepDocument] at h
  split at h
  · cases h
  · rename_i assignment tc₁ c₁ g₁ hpass
    exact ⟨assignment, tc₁, c₁, g₁, hpass, h⟩

theorem sweepDocument_succ_error {e : Failure α} {tokens : List Nat} {n : Nat} {s : TopicState}
    (h : sweepDocument o mode tokens (n + 1) s c g = (.error e, c', g')) :
    sweepTokens o mode tokens s.assignment s.counts c g = (.error e, c', g') ∨
      ∃ news tc c₁ g₁,
        sweepTokens o mode tokens s.assignment s.counts c g = (.ok (news, tc), c₁, g₁) ∧
        sweepDocument o mode tokens n ⟨tc, news⟩ c₁ g₁ = (.error e, c', g') := by
  rw [sweepDocument] at h
  split at h
  · rename_i hpass
    cases h
    exact .inl hpass
  · rename_i news tc c₁ g₁ hpass
    exact .inr ⟨news, tc, c₁, g₁, hpass, h⟩

theorem sweepDocument_after {tokens : List Nat} : ∀ {n : Nat} {s s' : TopicState} {c c' : Counts}
    {g g' : γ}, sweepDocument o mode tokens n s c g = (.ok s', c', g') →
    g' = Generator.after (n * tokens.length) g
  | 0, _, _, _, _, _, _, h => by
    rw [sweepDocument] at h
    cases h
    rw [Nat.zero_mul]
    rfl
  | n + 1, _, _, _, _, _, _, h => by
    obtain ⟨assignment, tc₁, c₁, g₁, hpass, hrest⟩ := sweepDocument_succ_ok h
    rw [sweepDocument_after hrest, sweepTokens_after hpass, ← Generator.after_add, Nat.succ_mul,
      Nat.add_comm]

theorem sweepDocument_extends {base : Counts} {tokens : List Nat} {others : List (Nat × Nat)}
    (hw : ∀ w ∈ tokens, w < base.vocSize) :
    ∀ {n : Nat} {s s' : TopicState} {c c' : Counts} {g g' : γ},
    s.counts.length = base.topicNum →
    sweepDocument o .train tokens n s c g = (.ok s', c', g') →
    c.Extends base (tokens.zip s.assignment ++ others) →
    c'.Extends base (tokens.zip s'.assignment ++ others)
  | 0, _, _, _, _, _, _, _, h, hext => by
    rw [sweepDocument] at h
    cases h
    exact hext
  | _ + 1, _, _, _, _, _, _, hK, h, hext => by
    obtain ⟨assignment, tc₁, c₁, g₁, hpass, hrest⟩ := sweepDocument_succ_ok h
    exact sweepDocument_extends hw ((sweepTokens_sizes hpass).1.trans hK) hrest
      (sweepTokens_extends hpass hw hK hext)

omit [Scalar α] in
/-- What has been checked before a document is sampled. -/
theorem checkSample_ok_iff {d : Document} {s : TopicState} :
    checkSample o sweeps d s c = .ok () ↔ sweeps ≠ 0 ∧
      (c.vocSize = o.vocSize ∧ c.topicNum = o.topicNum) ∧
      d.checkWords (α := α) o.vocSize = .ok () ∧ s.check (α := α) d o.topicNum = .ok () := by
  unfold checkSample Counts.checkShape
  by_cases hz : sweeps = 0
  · simp [hz]
  · by_cases hshape : c.vocSize = o.vocSize ∧ c.topicNum = o.topicNum
    · cases hw : d.checkWords (α := α) o.vocSize with
      | error e => simp [hz, hshape]
      | ok u => simp [hz, hshape]
    · have hbad : c.vocSize ≠ o.vocSize ∨ c.topicNum ≠ o.topicNum := by tauto
      simp [hz, hshape, hbad]

theorem sample_ok {d : Document} {s s' : TopicState}
    (h : sample o mode sweeps d s c g = (.ok s', c', g')) :
    checkSample o sweeps d s c = .ok () ∧
      (d.tokenCount = 0 ∧ s' = .empty o.topicNum ∧ c' = c ∧ g' = g ∨
        sweepDocument o mode d.tokens sweeps s c g = (.ok s', c', g')) := by
  unfold sample at h
  split at h
  · cases h
  · rename_i hcheck
    refine ⟨hcheck, ?_⟩
    split at h
    · rename_i hempty
      cases h
      exact .inl ⟨by simpa [Document.isEmpty] using hempty, rfl, rfl, rfl⟩
    · exact .inr h

/-- A document fails at a check, which touches nothing, or in its passes. -/
theorem sample_failed {e : Failure α} {d : Document} {s : TopicState}
    (h : sample o mode sweeps d s c g = (.error e, c', g')) :
    (∃ cause, checkSample o sweeps d s c = .error cause ∧ e = .error cause ∧ c' = c ∧ g' = g) ∨
      checkSample o sweeps d s c = .ok () ∧
        sweepDocument o mode d.tokens sweeps s c g = (.error e, c', g') := by
  rw [sample] at h
  cases hcheck : checkSample o sweeps d s c with
  | error cause =>
    rw [hcheck] at h
    cases h
    exact .inl ⟨cause, rfl, rfl, rfl, rfl⟩
  | ok u =>
    rw [hcheck] at h
    dsimp only at h
    split at h
    · cases h
    · exact .inr ⟨rfl, h⟩

/-- In training the counts hold the new topics of a resampled document in place of the old ones. -/
theorem sample_extends {base : Counts} {d : Document} {s s' : TopicState}
    {others : List (Nat × Nat)} (h : sample o .train sweeps d s c g = (.ok s', c', g'))
    (hext : c.Extends base (d.assigned s.assignment ++ others)) :
    c'.Extends base (d.assigned s'.assignment ++ others) := by
  obtain ⟨hcheck, hcase⟩ := sample_ok h
  obtain ⟨-, ⟨hv, hK⟩, hwords, hstate⟩ := checkSample_ok_iff.1 hcheck
  have hlen := Document.length_tokens hwords
  rcases hcase with ⟨hempty, rfl, rfl, -⟩ | h
  · have hnil : d.tokens = [] := List.length_eq_zero_iff.1 (hlen.trans hempty)
    simpa [Document.assigned, hnil] using hext
  · have hcounts : s.counts.length = base.topicNum := by
      rw [(TopicState.check_ok_iff.1 hstate).1, ← hext.topicNum_eq, hK]
    refine sweepDocument_extends (fun w hw => ?_) hcounts h hext
    rw [← hext.vocSize_eq, hv]
    exact Document.lt_of_mem_tokens hwords w hw

/-! ## What a move keeps -/

section
variable {P : Counts → Prop} (hmove : ∀ c word topic n, P c → P (mode.move c word topic n))
include hmove

theorem resampleToken_keeps (h : P c) : P (resampleToken o mode word old tc c g).2.1 := by
  unfold resampleToken
  split
  · dsimp only
    split
    · exact hmove _ _ _ _ h
    · split
      · exact hmove _ _ _ _ (hmove _ _ _ _ h)
      · exact hmove _ _ _ _ h
  · exact h

theorem sweepTokens_keeps {tokens topics : List Nat} (h : P c) :
    P (sweepTokens o mode tokens topics tc c g).2.1 := by
  induction tokens generalizing topics tc c g with
  | nil => rwa [sweepTokens]
  | cons word tokens ih =>
    cases topics with
    | nil => rwa [sweepTokens]
    | cons old topics =>
      have hone : P (resampleToken o mode word old tc c g).2.1 := resampleToken_keeps hmove h
      rw [sweepTokens]
      generalize resampleToken o mode word old tc c g = one at hone ⊢
      obtain ⟨e | ⟨new, tc₁⟩, c₁, g₁⟩ := one
      · exact hone
      · have hrest : P (sweepTokens o mode tokens topics tc₁ c₁ g₁).2.1 := ih hone
        dsimp only
        generalize sweepTokens o mode tokens topics tc₁ c₁ g₁ = rest at hrest ⊢
        obtain ⟨e | ⟨news, tc₂⟩, c₂, g₂⟩ := rest <;> exact hrest

theorem sweepDocument_keeps {tokens : List Nat} {n : Nat} {s : TopicState} (h : P c) :
    P (sweepDocument o mode tokens n s c g).2.1 := by
  induction n generalizing s c g with
  | zero => rwa [sweepDocument]
  | succ n ih =>
    have hpass : P (sweepTokens o mode tokens s.assignment s.counts c g).2.1 :=
      sweepTokens_keeps hmove h
    rw [sweepDocument]
    generalize sweepTokens o mode tokens s.assignment s.counts c g = pass at hpass ⊢
    obtain ⟨e | ⟨assignment, tc₁⟩, c₁, g₁⟩ := pass
    · exact hpass
    · exact ih hpass

/-- What every move of the counts keeps, a sample keeps, also one that fails. -/
theorem sample_keeps {d : Document} {s : TopicState} (h : P c) :
    P (sample o mode sweeps d s c g).2.1 := by
  unfold sample
  split
  · exact h
  · split
    · exact h
    · exact sweepDocument_keeps hmove h

end

theorem resampleToken_frozen : (resampleToken o .frozen word old tc c g).2.1 = c :=
  resampleToken_keeps (P := (· = c)) (fun _ _ _ _ => id) rfl

theorem sweepTokens_frozen {tokens topics : List Nat} :
    (sweepTokens o .frozen tokens topics tc c g).2.1 = c :=
  sweepTokens_keeps (P := (· = c)) (fun _ _ _ _ => id) rfl

/-- A document that is resampled frozen leaves all counts as they are. -/
theorem sample_frozen {d : Document} {s : TopicState} :
    (sample o .frozen sweeps d s c g).2.1 = c :=
  sample_keeps (P := (· = c)) (fun _ _ _ _ => id) rfl

theorem SampleMode.stored_move {topic : Nat} {n : Int} (h : c.Stored) :
    (mode.move c word topic n).Stored := by
  cases mode with
  | train => exact Counts.stored_addTokens h
  | frozen => exact h

/-- A sample leaves counts that have room. -/
theorem sample_stored {d : Document} {s : TopicState} (h : c.Stored) :
    (sample o mode sweeps d s c g).2.1.Stored :=
  sample_keeps (fun _ _ _ _ => SampleMode.stored_move) h

end

/-! ## States that fit -/

section
variable [Arithmetic] {d : Document}

/-- A pass leaves the numbers of tokens of each topic. -/
theorem sweepTokens_fits {s : TopicState} {news : List Nat} (hs : s.Fits d o.topicNum)
    (hlen : d.tokens.length = d.tokenCount)
    (h : sweepTokens o mode d.tokens s.assignment s.counts c g = (.ok (news, tc'), c', g')) :
    TopicState.Fits ⟨tc', news⟩ d o.topicNum := by
  have hlen := hlen.trans hs.length_eq.symm
  obtain ⟨hl, hlt⟩ := sweepTokens_topics hlen h
  have hK := hs.length_counts
  have hsize := (sweepTokens_sizes h).1
  have hnews : news.length = d.tokenCount := hl.trans hs.length_eq
  have hstored : Stored tc' := by
    refine sweepTokens_stored ?_ h
    rw [hs.counts_eq]
    exact stored_histogram (hs.length_eq ▸ hs.hasRoom)
  refine ⟨hs.hasRoom, hnews, by rwa [hK] at hlt,
    List.ext_getElem (by simp [hsize, hK]) fun k hk _ => ?_⟩
  have hk' : k < s.counts.length := hsize ▸ hk
  have hcount := sweepTokens_modEq hlen hk' h
  have hold : s.counts.getD k 0 = s.assignment.count k := by
    rw [List.getD_eq_getElem?_getD, hs.counts_eq, getElem?_histogram, if_pos (hK ▸ hk')]
    rfl
  rw [List.getD_eq_getElem _ _ hk, hold, add_sub_cancel] at hcount
  rw [Arithmetic.eq_signed_of_modEq (hstored _ (List.getElem_mem hk)) hcount,
    hs.hasRoom.mono (hnews ▸ List.count_le_length)]
  simp [histogram]

theorem sweepDocument_fits (hlen : d.tokens.length = d.tokenCount) :
    ∀ {n : Nat} {s s' : TopicState} {c c' : Counts} {g g' : γ}, s.Fits d o.topicNum →
    sweepDocument o mode d.tokens n s c g = (.ok s', c', g') → s'.Fits d o.topicNum
  | 0, _, _, _, _, _, _, hs, h => by
    rw [sweepDocument] at h
    cases h
    exact hs
  | _ + 1, _, _, _, _, _, _, hs, h => by
    obtain ⟨assignment, tc₁, c₁, g₁, hpass, hrest⟩ := sweepDocument_succ_ok h
    exact sweepDocument_fits hlen (sweepTokens_fits hs hlen hpass) hrest

/-- A resampled document has a state that fits it, over as many topics as the one before. -/
theorem sample_fits {s s' : TopicState} {K : Nat} (hs : s.Fits d K)
    (h : sample o mode sweeps d s c g = (.ok s', c', g')) : s'.Fits d K := by
  obtain ⟨hcheck, hcase⟩ := sample_ok h
  obtain ⟨-, -, hwords, hstate⟩ := checkSample_ok_iff.1 hcheck
  obtain rfl := hs.topicNum_eq hstate
  rcases hcase with ⟨hempty, rfl, -, -⟩ | h
  · exact TopicState.fits_empty hempty
  · exact sweepDocument_fits (Document.length_tokens hwords) hs h

end

end TopicModel
