import Mathlib
import TopicModel.Proofs.Score

/-!
# What a sweep can fail with

The checks that come before a document is resampled rule out everything but its weights. A token
that lies in the layout of the counts fails with a degenerate weight or not at all, and so does a
pass over such tokens, since every step leaves the sizes as they are (`sweepTokens_sizes`). The
checks of `sample` ask for just that: whatever document, state and counts it is given, it fails with
what a check reports or with a degenerate weight (`sample_error`).

A fault is an access out of range or a draw among no alternatives, which no check reports. A
computation is `Faultless` if it succeeds or fails with a cause that its caller is told of.

* From `sample` this is handed up to scans with any cache, to sweeps of partitions and of workers
  (`Worker.faultless_sweep`).
* Tallies refuse documents for a cause only (`Worker.faultless_tally`), and scores fail with a cause
  only (`Worker.faultless_score`).
-/

namespace TopicModel

/-- The failure is that of a weight which is not proper or was read from a negative count. -/
def Failure.IsDegenerate {α : Type} (e : Failure α) : Prop :=
  ∃ word topic weight, e = .error (.degenerateWeights word topic weight)

namespace Outcome

variable {α τ τ' : Type} {r : Outcome α τ}

/-- The computation does not end with a fault. -/
def Faultless (r : Outcome α τ) : Prop := ∀ f, r ≠ .error (.fault f)

theorem faultless_ok (x : τ) : Faultless (.ok x : Outcome α τ) := fun _ h => by cases h

theorem faultless_error (e : Error α) : Faultless (.error (.error e) : Outcome α τ) :=
  fun _ h => by cases h

/-- A failure that is passed on. -/
theorem Faultless.fail {e : Failure α} (h : Faultless (.error e : Outcome α τ)) :
    Faultless (.error e : Outcome α τ') :=
  fun f he => h f (congrArg _ (Except.error.inj he))

end Outcome

open Outcome

variable {α γ : Type} [Scalar α] [Generator γ] {o : Options α} {mode : SampleMode} {sweeps : Nat}
  {e : Failure α}

/-! ## Documents -/

section
variable [Arithmetic] {word old : Nat} {tc tc' : List Int} {c c' : Counts} {g g' : γ}

theorem resampleToken_degenerate (hword : word < o.vocSize) (hV : c.vocSize = o.vocSize)
    (hK : c.topicNum = o.topicNum) (htc : tc.length = o.topicNum) (hold : old < o.topicNum)
    (h : (resampleToken o mode word old tc c g).1 = .error e) : e.IsDegenerate := by
  obtain ⟨-, -, topic, weight, he⟩ := resampleToken_failed hword hV hK htc hold (Prod.ext h rfl)
  exact ⟨word, topic, weight, he⟩

theorem sweepTokens_degenerate : ∀ {tokens topics : List Nat} {tc : List Int} {c : Counts} {g : γ},
    tokens.length = topics.length → (∀ w ∈ tokens, w < o.vocSize) →
    (∀ k ∈ topics, k < o.topicNum) → tc.length = o.topicNum → c.vocSize = o.vocSize →
    c.topicNum = o.topicNum → (sweepTokens o mode tokens topics tc c g).1 = .error e →
    e.IsDegenerate
  | [], [], _, _, _, _, _, _, _, _, _, h => by cases h
  | word :: tokens, old :: topics, tc, c, g, hlen, hw, hk, htc, hV, hK, h => by
    obtain ⟨hword, hw⟩ := List.forall_mem_cons.1 hw
    obtain ⟨hold, hk⟩ := List.forall_mem_cons.1 hk
    rcases sweepTokens_cons_error (Prod.ext h rfl) with hone | ⟨new, tc₁, c₁, g₁, hone, hrest⟩
    · exact resampleToken_degenerate hword hV hK htc hold (congrArg Prod.fst hone)
    · obtain ⟨-, rfl, rfl, -⟩ := resampleToken_ok hone
      exact sweepTokens_degenerate (Nat.succ.inj hlen) hw hk (by simpa using htc)
        (by simpa using hV) (by simpa using hK) (congrArg Prod.fst hrest)

theorem sweepDocument_degenerate {tokens : List Nat} (hw : ∀ w ∈ tokens, w < o.vocSize) :
    ∀ {n : Nat} {s : TopicState} {c : Counts} {g : γ}, tokens.length = s.assignment.length →
    (∀ k ∈ s.assignment, k < o.topicNum) → s.counts.length = o.topicNum →
    c.vocSize = o.vocSize → c.topicNum = o.topicNum →
    (sweepDocument o mode tokens n s c g).1 = .error e → e.IsDegenerate
  | 0, _, _, _, _, _, _, _, _, h => by cases h
  | n + 1, s, c, g, hlen, hk, htc, hV, hK, h => by
    rcases sweepDocument_succ_error (Prod.ext h rfl) with hpass | ⟨news, tc, c₁, g₁, hpass, hrest⟩
    · exact sweepTokens_degenerate hlen hw hk htc hV hK (congrArg Prod.fst hpass)
    · obtain ⟨hnews, hlt⟩ := sweepTokens_topics hlen hpass
      obtain ⟨htc₁, hV₁, hK₁⟩ := sweepTokens_sizes hpass
      exact sweepDocument_degenerate hw (hlen.trans hnews.symm) (htc ▸ hlt) (htc₁.trans htc)
        (hV₁.trans hV) (hK₁.trans hK) (congrArg Prod.fst hrest)

/-- A document that is not resampled is refused by a check or has a degenerate weight. -/
theorem sample_error {d : Document} {s : TopicState}
    (h : (sample o mode sweeps d s c g).1 = .error e) :
    (∃ cause, checkSample o sweeps d s c = .error cause ∧ e = .error cause) ∨ e.IsDegenerate := by
  rcases sample_failed (Prod.ext h rfl) with ⟨cause, herror, he, -⟩ | ⟨hcheck, hswept⟩
  · exact .inl ⟨cause, herror, he⟩
  · obtain ⟨-, ⟨hV, hK⟩, hwords, hstate⟩ := checkSample_ok_iff.1 hcheck
    obtain ⟨hcounts, hlen, -, -, hk⟩ := TopicState.check_ok_iff.1 hstate
    exact .inr (sweepDocument_degenerate (Document.lt_of_mem_tokens hwords)
      ((Document.length_tokens hwords).trans hlen.symm) hk hcounts hV hK (congrArg Prod.fst hswept))

theorem faultless_sample (o : Options α) (mode : SampleMode) (sweeps : Nat) (d : Document)
    (s : TopicState) (c : Counts) (g : γ) : Faultless (sample o mode sweeps d s c g).1 := by
  intro f h
  rcases sample_error h with ⟨_, -, he⟩ | ⟨_, _, _, he⟩
  · cases he
  · cases he

end

/-! ## Sweeps -/

omit [Scalar α] in
/-- What is lent counts gives a result of its own on some counts, held or taken over. -/
theorem ScanCache.acquire_ok {β : Type} {cache cache' : ScanCache} {key : ScanKey} {V K : Nat}
    {flat : Array Int} {use : Counts → β × Counts} {x : β}
    (h : cache.acquire (α := α) key V K flat use = (.ok x, cache')) : ∃ c, x = (use c).1 := by
  have hdecode : ∀ {n}, acquire.decode (α := α) key V K flat use n = (.ok x, cache') →
      ∃ c, x = (use c).1 := by
    intro n h
    rw [acquire.decode] at h
    cases hflat : Counts.ofFlat (α := α) V K flat with
    | error e =>
      rw [hflat] at h
      cases h
    | ok c =>
      rw [hflat] at h
      exact ⟨c, (Except.ok.inj (congrArg Prod.fst h)).symm⟩
  obtain ⟨_ | ⟨held, c⟩, n⟩ := cache
  · exact hdecode h
  · rw [acquire] at h
    by_cases hkey : held = key
    · rw [if_pos hkey] at h
      exact ⟨c, (Except.ok.inj (congrArg Prod.fst h)).symm⟩
    · rw [if_neg hkey] at h
      exact hdecode h

variable [Arithmetic]

namespace Partition

variable {b : Broadcast α} {key : ScanKey}

theorem faultless_samplePairs : ∀ (pairs : List (Document × TopicState)) (cache : ScanCache)
    (g : γ), Faultless (samplePairs b mode sweeps key pairs cache g).1
  | [], _, _ => faultless_ok _
  | (d, s) :: rest, cache, g => by
    rw [samplePairs]
    dsimp only
    split
    · exact faultless_error _
    · rename_i e g' cache' hacquire
      obtain ⟨c, hc⟩ := ScanCache.acquire_ok hacquire
      have hone := faultless_sample b.options mode sweeps d s c g
      generalize sample b.options mode sweeps d s c g = one at hone hc
      obtain ⟨r, c', g''⟩ := one
      obtain ⟨rfl, rfl⟩ := Prod.mk.inj hc
      exact hone.fail
    · rename_i s' g' cache' hacquire
      have hrest := faultless_samplePairs rest cache' g'
      generalize samplePairs b mode sweeps key rest cache' g' = others at hrest ⊢
      obtain ⟨e | states, cache'', g''⟩ := others
      · exact hrest.fail
      · exact faultless_ok _

theorem faultless_sweep (p : Partition) (b : Broadcast α) (mode : SampleMode) (sweeps : Nat)
    (g : γ) : Faultless (p.sweep b mode sweeps g).1 := by
  have hscan : Faultless
      (samplePairs b mode sweeps ⟨b.iteration, p.index⟩ p.pairs p.cache g).1 :=
    faultless_samplePairs p.pairs p.cache g
  rw [Partition.sweep]
  dsimp only
  generalize samplePairs b mode sweeps ⟨b.iteration, p.index⟩ p.pairs p.cache g = sampled at hscan ⊢
  obtain ⟨e | states, cache, g'⟩ := sampled
  · exact hscan.fail
  · exact faultless_ok _

end Partition

namespace Worker

theorem faultless_sweepShards (b : Broadcast α) (mode : SampleMode) (sweeps : Nat) :
    ∀ (ps : List Partition) (seeds : List UInt64),
      Faultless (sweepShards b mode sweeps ps seeds).1
  | [], _ => faultless_ok _
  | _ :: _, [] => faultless_ok _
  | p :: ps, seed :: seeds => by
    have hone := p.faultless_sweep b mode sweeps (Xoshiro.ofSeed seed)
    have hrest := faultless_sweepShards b mode sweeps ps seeds
    rw [sweepShards]
    generalize p.sweep b mode sweeps (Xoshiro.ofSeed seed) = swept at hone ⊢
    obtain ⟨e | u, p', g'⟩ := swept
    · exact hone
    · exact hrest

theorem faultless_sweep (w : Worker) (b : Broadcast α) (mode : SampleMode) (sweeps : Nat) (g : γ) :
    Faultless (w.sweep b mode sweeps g).1 := by
  cases w with
  | single p => exact p.faultless_sweep b mode sweeps g
  | sharded ps => exact faultless_sweepShards b mode sweeps ps _

/-! ## Tallies -/

omit [Scalar α] in
theorem faultless_tally (w : Worker) (o : Options α) : Faultless (w.tally o) := by
  rw [tally_eq_addPairs]
  cases hfirst : w.pairs.findSome? (Partition.refusal? o) with
  | some e =>
    rw [Partition.addPairs_refused Tally.holds_empty hfirst]
    exact faultless_error e
  | none =>
    obtain ⟨t, ht, -⟩ := Partition.addPairs_holds (α := α) Tally.holds_empty
      (List.findSome?_eq_none_iff.1 hfirst)
    rw [ht]
    exact faultless_ok t

end Worker

/-! ## Scores -/

theorem Worker.faultless_score (w : Worker) (b : Broadcast α) : Faultless (w.score b) := by
  intro f h
  obtain ⟨_, _, _, _, he⟩ | ⟨_, _, _, _, _, he⟩ := score_error h
  · cases he
  · cases he

end TopicModel
