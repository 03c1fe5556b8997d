import Mathlib
import TopicModel.Proofs.Score
import TopicModel.Proofs.Training
import TopicModel.Proofs.WeightCalls

/-!
# Training with exact scalars

Over any scalars, every sweep of a fit computes its weights from counts that are not negative and
that hold the tokens of the partition at work (`Training.Counted.explains`), so that no failure is
due to a negative count. With the reals as scalars such weights are always proper
(`conditional_proper`): no sweep of a fit fails, and a fit without evaluations succeeds
(`Model.fit_ok`).
-/

namespace TopicModel

open Arithmetic (HasRoom)

/-- The reals as scalars, with every operation exact. -/
noncomputable instance : Scalar ℝ where
  ofInt n := n
  lt x y := open Classical in decide (x < y)
  isFinite _ := true
  abs x := |x|
  exp := Real.exp
  log := Real.log
  lnGamma x := Real.log (Real.Gamma x)
  tiny := 2 ^ (-1022 : ℤ)

/-! ## Weights -/

theorem isProper_iff {x : ℝ} : Scalar.isProper x = true ↔ 0 < x := by
  simp [Scalar.isProper, Scalar.lt, Scalar.isFinite, Scalar.zero, Scalar.ofInt]

/-- A weight computed from counts that are not negative is proper. -/
theorem conditional_proper {o : Options ℝ} (ho : o.check = .ok ()) {inDocument ofWord ofTopic : Int}
    (hd : 0 ≤ inDocument) (hw : 0 ≤ ofWord) (ht : 0 ≤ ofTopic) :
    Scalar.isProper (conditional o inDocument ofWord ofTopic) = true := by
  obtain ⟨halpha, hbeta, hV, -⟩ := Model.check_ok_iff.1 ho
  rw [isProper_iff] at halpha hbeta ⊢
  have hd : (0 : ℝ) ≤ inDocument := Int.cast_nonneg hd
  have hw : (0 : ℝ) ≤ ofWord := Int.cast_nonneg hw
  have ht : (0 : ℝ) ≤ ofTopic := Int.cast_nonneg ht
  have hV : (0 : ℝ) < ((o.vocSize : ℤ) : ℝ) := by exact_mod_cast hV
  show (0 : ℝ) < (inDocument + o.alpha) * (ofWord + o.beta) /
    (ofTopic + ((o.vocSize : ℤ) : ℝ) * o.beta)
  positivity

/-- So is the share of a word in a topic. -/
theorem wordShare_proper {o : Options ℝ} (ho : o.check = .ok ()) {ofWord ofTopic : Int}
    (hw : 0 ≤ ofWord) (ht : 0 ≤ ofTopic) :
    Scalar.isProper (wordShare o ofWord ofTopic) = true := by
  obtain ⟨-, hbeta, hV, -⟩ := Model.check_ok_iff.1 ho
  rw [isProper_iff] at hbeta ⊢
  have hw : (0 : ℝ) ≤ ofWord := Int.cast_nonneg hw
  have ht : (0 : ℝ) ≤ ofTopic := Int.cast_nonneg ht
  have hV : (0 : ℝ) < ((o.vocSize : ℤ) : ℝ) := by exact_mod_cast hV
  show (0 : ℝ) < (ofWord + o.beta) / (ofTopic + ((o.vocSize : ℤ) : ℝ) * o.beta)
  positivity

/-- Counts that are not negative raise no failure of a score. -/
theorem not_raisesShare {o : Options ℝ} (ho : o.check = .ok ()) {c : Counts}
    (hc : ∀ n ∈ c.flat, 0 ≤ n) (e : Failure ℝ) : ¬ RaisesShare o c e := by
  rintro ⟨word, -, topic, -, hbad, -⟩
  have hw := Counts.value_nonneg hc word topic
  have ht := Counts.value_nonneg hc c.vocSize topic
  rw [wordShare_proper ho hw ht] at hbad
  rcases hbad with hneg | hneg | hneg
  · omega
  · omega
  · cases hneg

theorem WeightCall.not_raises {o : Options ℝ} (ho : o.check = .ok ()) (call : WeightCall)
    (e : Failure ℝ) : ¬ call.Raises o e := by
  rintro ⟨topic, x, n, m, -, -, -, hx, hn, hm, hbad, -⟩
  rw [conditional_proper ho hx hn hm] at hbad
  cases hbad

/-- A computation that only its calls can end does not fail. -/
theorem WeightCall.Explains.ok {o : Options ℝ} {calls : List WeightCall} {result : Outcome ℝ Unit}
    (h : Explains calls o result) (ho : o.check = .ok ()) : result = .ok () := by
  cases hr : result with
  | ok u => rfl
  | error e =>
    obtain ⟨call, -, hraises⟩ := h.raised e hr
    exact absurd hraises (call.not_raises ho e)

/-- A training sweep of a partition succeeds against the counts of its tokens and any others. -/
theorem Partition.sweep_ok {γ : Type} [Arithmetic] [Generator γ] {p : Partition}
    {b : Broadcast ℝ} {sweeps : Nat} {others : List (Nat × Nat)} (ho : b.options.check = .ok ())
    (hsweeps : sweeps ≠ 0)
    (hd : ∀ d ∈ p.documents, d.checkWords (α := ℝ) b.options.vocSize = .ok ())
    (hp : p.Assigned b.options.topicNum)
    (hin : Counts.Within b.options.vocSize b.options.topicNum others)
    (ht : b.counts.Tallies b.options.vocSize b.options.topicNum (p.tokens ++ others))
    (hroom : HasRoom (p.tokens ++ others).length) (g : γ) :
    (p.sweep b .train sweeps g).1 = .ok () := by
  obtain ⟨base, hb⟩ := Counts.exists_tallies hin
  exact (p.explains_weightCalls hb hsweeps hd hp ht hroom).ok ho

/-- A run that sets no option but its seed, iterations and partitions passes the check. -/
theorem check_standard {seed : UInt64} {iters : Nat} {workers : Int} (h : iters ≠ 0) :
    ({ FitOptions.standard with seed, iters, workers } : FitOptions ℝ).check = .ok () := by
  simp [FitOptions.check, FitOptions.standard, h, Scalar.lt, Scalar.isFinite]

/-! ## Sweeps of a run -/

namespace Training

variable {α γ σ : Type} [Arithmetic] [Generator γ] {ds : List Document}

/-- The sweep of a counted run is explained by its calls. -/
theorem Counted.explains [Scalar α] {o : Options α} {t : Training α γ σ} (h : t.Counted o ds) :
    WeightCall.Explains (t.worker.weightCalls t.model 1 t.generator) o
      (t.worker.sweep t.model .train 1 t.generator).1 := by
  have hroom := h.hasRoom_tokens
  obtain ⟨hd, rfl, rfl, -, hw, ht⟩ := h
  exact t.worker.explains_weightCalls Nat.one_ne_zero hd hw ht hroom

theorem Counted.sweep_ok {o : Options ℝ} {t : Training ℝ γ σ} (h : t.Counted o ds)
    (ho : o.check = .ok ()) : (t.worker.sweep t.model .train 1 t.generator).1 = .ok () :=
  h.explains.ok ho

section
variable [Scalar α] {o : Options α} {t : Training α γ σ}

omit [Generator γ] in
/-- The model of a counted run passes the checks of every document, so that only a share of a word
can end its score. -/
theorem Counted.score_error {e : Failure α} (h : t.Counted o ds)
    (he : t.worker.score t.model = .error e) : RaisesShare o t.model.counts e := by
  have hshape := And.intro h.tallies.vocSize_eq h.tallies.topicNum_eq
  have hoptions := h.options_eq
  obtain ⟨⟨d, s⟩, hx, cause, hcheck, -⟩ | hraises := Worker.score_error he
  · rw [h.assigned.pairs_eq] at hx
    have hs : TopicState.Fits s d o.topicNum := (List.forall₂_iff_zip.1 h.assigned.fits).2 hx
    have hd := h.checked d (h.documents_eq ▸ (List.of_mem_zip hx).1)
    rw [hoptions, checkSample_ok_iff.2 ⟨one_ne_zero, hshape, hd, hs.check⟩] at hcheck
    cases hcheck
  · rwa [hoptions] at hraises

omit [Generator γ] in
/-- It covers the tokens of the documents. -/
theorem Counted.score_tokens {q : Perplexity α} (h : t.Counted o ds)
    (hq : t.worker.score t.model = .ok q) : q.tokens = (ds.map Document.tokenCount).sum := by
  rw [Worker.score_tokens hq, h.assigned.pairs_eq,
    List.map_fst_zip (Nat.le_of_eq h.assigned.fits.length_eq), h.documents_eq]
  exact HasRoom.unsigned_eq h.hasRoom

end

omit [Generator γ] in
/-- With tokens there is a perplexity. -/
theorem Counted.perplexity_ok {o : Options ℝ} {t : Training ℝ γ σ} (h : t.Counted o ds)
    (ho : o.check = .ok ()) (htokens : 0 < (ds.map Document.tokenCount).sum) :
    ∃ p, t.perplexity = .ok p := by
  rw [Training.perplexity]
  cases hscore : t.worker.score t.model with
  | error e =>
    have hnonneg := h.tallies.nonneg h.hasRoom_tokens
    exact absurd (h.score_error hscore) (not_raisesShare ho hnonneg e)
  | ok q =>
    have hcovers := h.score_tokens hscore
    rw [Outcome.ok_bind, Perplexity.value, if_neg (by omega)]
    exact ⟨_, rfl⟩

/-- A run succeeds if it has tokens to evaluate or makes no evaluation. -/
theorem Counted.run_ok {o : Options ℝ} {f : FitOptions ℝ} {notify : Event ℝ → σ → σ}
    (ho : o.check = .ok ())
    (hf : f.evaluateEvery = 0 ∨ 0 < (ds.map Document.tokenCount).sum) :
    ∀ {n i : Nat} {t : Training ℝ γ σ}, t.Counted o ds → (t.run f notify n i).1 = .ok ()
  | 0, _, _, _ => rfl
  | n + 1, i, t, h => by
    have hbefore : (t.announce notify (.before i)).Counted o ds := h.congr rfl rfl
    obtain ⟨t₁, hadvance, -⟩ := hbefore.advance (hbefore.sweep_ok ho)
    have hiterates := t.iterates f notify i
    rw [Training.run]
    rcases hi : t.iterate f notify i with ⟨_ | stop, t'⟩
    · rw [hi] at hiterates
      cases hiterates with
      | failed ha =>
        rw [hadvance] at ha
        cases ha
      | undefined ha he hp =>
        rcases hf with hnever | htokens
        · simp [evaluatesAfter, hnever] at he
        · obtain ⟨p, hok⟩ := (h.advanced ha).perplexity_ok ho htokens
          rw [hp] at hok
          cases hok
    · cases stop with
      | true => rfl
      | false => exact (h.iterate hi).run_ok ho hf

end Training

/-! ## Fits -/

namespace Model

variable {σ : Type}

/-- A fit without evaluations succeeds. -/
theorem fit_ok [Arithmetic] {m : Model ℝ} {ds : List Document} {f : FitOptions ℝ}
    (h : m.checkFit ds f = .ok ()) (hf : f.evaluateEvery = 0) (hroom : TokensHaveRoom ds)
    (processors : Nat) (notify : Event ℝ → σ → σ) (watcher : σ) :
    ∃ outputs, (m.fit processors ds f notify watcher).result = .ok outputs := by
  obtain ⟨t, hstart, ht, -⟩ := start_counted h hroom processors watcher
  have hrun : (t.run f notify f.iters 0).1 = .ok () :=
    ht.run_ok (checkFit_ok_iff.1 h).1 (.inl hf)
  rw [fit_eq, hstart]
  exact ⟨_, congrArg (Except.map _) hrun⟩

/-- In every iteration of a fit whose input passes the checks and whose tokens have room, all
weights are computed from counts that are not negative and hold the other tokens of their partition,
and a sweep that fails names a weight computed from such counts. With exact scalars no sweep
fails. -/
theorem swept_counts_nonneg [Arithmetic] :
    (∀ {α σ : Type} [Scalar α] (m : Model α) (processors : Nat) (ds : List Document)
      (f : FitOptions α) (notify : Event α → σ → σ) (watcher : σ), m.checkFit ds f = .ok () →
      TokensHaveRoom ds → ∃ start, m.start processors ds f watcher = .ok start ∧
        m.fit processors ds f notify watcher = m.fitOf (start.run f notify f.iters 0) ∧
        ∀ t ∈ start.sweptFrom f notify f.iters 0,
          (∀ call ∈ t.worker.weightCalls t.model 1 t.generator, call.Covered m.options) ∧
          ∀ e, (t.worker.sweep t.model .train 1 t.generator).1 = .error e →
            ∃ call ∈ t.worker.weightCalls t.model 1 t.generator, call.Raises m.options e) ∧
    ∀ {σ : Type} (m : Model ℝ) (processors : Nat) (ds : List Document) (f : FitOptions ℝ)
      (notify : Event ℝ → σ → σ) (watcher : σ), m.checkFit ds f = .ok () →
      TokensHaveRoom ds → ∃ start, m.start processors ds f watcher = .ok start ∧
        m.fit processors ds f notify watcher = m.fitOf (start.run f notify f.iters 0) ∧
        ∀ t ∈ start.sweptFrom f notify f.iters 0,
          (t.worker.sweep t.model .train 1 t.generator).1 = .ok () := by
  constructor
  · intro α σ _ m processors ds f notify watcher h hroom
    obtain ⟨start, hstart, hcounted, -⟩ := start_counted h hroom processors watcher
    refine ⟨start, hstart, by rw [fit_eq, hstart], fun t ht => ?_⟩
    have hexplains := (hcounted.sweptFrom t ht).explains
    exact ⟨hexplains.covered, hexplains.raised⟩
  · intro σ m processors ds f notify watcher h hroom
    obtain ⟨start, hstart, hcounted, -⟩ := start_counted h hroom processors watcher
    refine ⟨start, hstart, by rw [fit_eq, hstart], fun t ht => ?_⟩
    exact (hcounted.sweptFrom t ht).sweep_ok (checkFit_ok_iff.1 h).1

/-- Two documents over three words, in a shard each. -/
theorem swept_counts_nonneg_two_shards :
    let m : Model ℝ := .ofOptions ⟨3, 2, 1, 1⟩
    let ds : List Document := [⟨0, [0, 2], [1, 2]⟩, ⟨1, [1], [1]⟩]
    let f : FitOptions ℝ := { FitOptions.standard with seed := 7, iters := 5, workers := 2 }
    m.checkFit ds f = .ok () ∧ TokensHaveRoom ds ∧
      ∃ start, m.start 1 ds f () = .ok start ∧
        m.fit 1 ds f (fun _ s => s) () = m.fitOf (start.run f (fun _ s => s) f.iters 0) ∧
        ∀ t ∈ start.sweptFrom f (fun _ s => s) f.iters 0,
          (∀ call ∈ t.worker.weightCalls t.model 1 t.generator, call.Covered m.options) ∧
          (t.worker.sweep t.model .train 1 t.generator).1 = .ok () := by
  intro m ds f
  have hcheck : m.checkFit ds f = .ok () := by
    refine checkFit_ok_iff.2 ⟨check_ok_iff.2 ⟨isProper_iff.2 one_pos, isProper_iff.2 one_pos,
      by decide, by decide⟩, check_standard (by decide), fun d hd => ?_⟩
    rw [Document.checkWords_ok_iff]
    revert d
    decide
  have hroom : TokensHaveRoom ds := by decide
  obtain ⟨start, hstart, hfit, hcalls⟩ := swept_counts_nonneg.1 m 1 ds f (fun _ s => s) ()
    hcheck hroom
  obtain ⟨start', hstart', -, hsweeps⟩ :=
    swept_counts_nonneg.2 m 1 ds f (fun _ s => s) () hcheck hroom
  rw [hstart] at hstart'
  cases hstart'
  exact ⟨hcheck, hroom, start, hstart, hfit, fun t ht => ⟨(hcalls t ht).1, hsweeps t ht⟩⟩

end Model

end TopicModel
