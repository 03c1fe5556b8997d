import Mathlib
import TopicModel.Proofs.Exact

/-!
# The trace of a run

Iteration `i` of a run that succeeds announces `Trace.step`: before, during, the perplexity if it is
evaluated, after. What an iteration computes depends on neither the watcher nor the history, so that
the models and the perplexities of a run are fixed by its start alone (`Training.stage`), and the
run after `n` iterations is `t.completed f n`: the `n`-th stage with the events and the evaluations
of `n` iterations.

An iteration takes `t.completed f n` to `t.completed f (n + 1)`, and says that the run has converged
just if `Trace.Converges` holds of `n + 1`, or else it fails right after its first or its second
event (`Training.iterate_completed`). A run therefore ends in one of two ways (`Training.Ends`,
`run_completed`).
-/

namespace TopicModel

open Arithmetic (unsigned)

variable {α γ : Type}

/-! ## Schedules -/

namespace Trace

variable {f : FitOptions α} {b : Nat → Broadcast α} {p : Nat → α} {n : Nat}

/-- The perplexity is evaluated after the iteration `i`. -/
def Evaluates (f : FitOptions α) (i : Nat) : Prop := 0 < f.evaluateEvery ∧ f.evaluateEvery ∣ i + 1

instance (f : FitOptions α) (i : Nat) : Decidable (Evaluates f i) :=
  inferInstanceAs (Decidable (_ ∧ _))

/-- The events of the iteration `i`, with the models `b` and the perplexities `p`. -/
def step (f : FitOptions α) (b : Nat → Broadcast α) (p : Nat → α) (i : Nat) : List (Event α) :=
  .before i :: .during i (b i) ::
    if Evaluates f i then [.evaluated i (p i), .after i] else [.after i]

/-- The events of the first `n` iterations. -/
def events (f : FitOptions α) (b : Nat → Broadcast α) (p : Nat → α) (n : Nat) : List (Event α) :=
  (List.range n).flatMap (step f b p)

/-- The evaluations of the first `n` iterations. -/
def evaluations (f : FitOptions α) (p : Nat → α) (n : Nat) : List (Nat × α) :=
  ((List.range n).filter fun i => Evaluates f i).map fun i => (i, p i)

theorem evaluatesAfter_eq (f : FitOptions α) (i : Nat) :
    Training.evaluatesAfter f i = decide (Evaluates f i) := by
  simp only [Training.evaluatesAfter, Evaluates, Nat.dvd_iff_mod_eq_zero, Bool.decide_and]
  rfl

theorem events_succ : events f b p (n + 1) = events f b p n ++ step f b p n := by
  rw [events, List.range_succ, List.flatMap_append, List.flatMap_singleton]
  rfl

theorem evaluations_succ : evaluations f p (n + 1) =
    evaluations f p n ++ if Evaluates f n then [(n, p n)] else [] := by
  rw [evaluations, List.range_succ, List.filter_append, List.map_append]
  by_cases h : Evaluates f n <;> simp [h, evaluations]

theorem evaluations_add : ∀ {k : Nat}, (∀ i, n ≤ i → i < n + k → ¬ Evaluates f i) →
    evaluations f p (n + k) = evaluations f p n
  | 0, _ => rfl
  | k + 1, h => by
    rw [← Nat.add_assoc, evaluations_succ, if_neg (h (n + k) (by omega) (by omega)),
      List.append_nil]
    exact evaluations_add fun i hi hlt => h i hi (by omega)

theorem evaluations_eq_nil (h : ∀ i < n, ¬ Evaluates f i) : evaluations f p n = [] := by
  have hadd : evaluations f p (0 + n) = evaluations f p 0 :=
    evaluations_add fun i _ hi => h i (by omega)
  rw [Nat.zero_add] at hadd
  exact hadd

/-- Before an evaluation the last one is as many iterations back as the options say. -/
theorem getLast?_evaluations (h : Evaluates f n) : (evaluations f p n).getLast? =
    if 2 * f.evaluateEvery ≤ n + 1 then some (n - f.evaluateEvery, p (n - f.evaluateEvery))
    else none := by
  obtain ⟨hpos, hn⟩ := h
  have hle := Nat.le_of_dvd (Nat.succ_pos n) hn
  -- two multiples that are less than one step apart are the same
  have hbetween : ∀ i, n < i + f.evaluateEvery → i < n → ¬ Evaluates f i := by
    rintro i hi hlt ⟨-, hdvd⟩
    have hdiff := Nat.le_of_dvd (by omega) (Nat.dvd_sub hn hdvd)
    omega
  split
  · obtain ⟨k, hk⟩ : ∃ k, n = n - f.evaluateEvery + 1 + k := ⟨f.evaluateEvery - 1, by omega⟩
    have hlast : Evaluates f (n - f.evaluateEvery) := by
      refine ⟨hpos, ?_⟩
      rw [show n - f.evaluateEvery + 1 = n + 1 - f.evaluateEvery by omega]
      exact Nat.dvd_sub hn (Nat.dvd_refl _)
    have hskip : evaluations f p n = evaluations f p (n - f.evaluateEvery + 1) := by
      conv_lhs => rw [hk]
      exact evaluations_add fun i hi hlt => hbetween i (by omega) (by omega)
    rw [hskip, evaluations_succ, if_pos hlast, List.getLast?_concat]
  · have hfirst : n + 1 - f.evaluateEvery = 0 := by
      by_contra hpos'
      have hdiff := Nat.le_of_dvd (Nat.pos_of_ne_zero hpos') (Nat.dvd_sub hn (Nat.dvd_refl _))
      omega
    rw [evaluations_eq_nil fun i hi => hbetween i (by omega) hi]
    rfl

variable [Scalar α]

/-- The run has converged after `m` iterations: the last two evaluations differ by less than the
tolerance. -/
def Converges (f : FitOptions α) (p : Nat → α) (m : Nat) : Prop :=
  0 < f.evaluateEvery ∧ f.evaluateEvery ∣ m ∧ 2 * f.evaluateEvery ≤ m ∧
    Scalar.lt Scalar.zero f.perplexityTol = true ∧
    Scalar.lt (relativeChange (p (m - f.evaluateEvery - 1)) (p (m - 1))) f.perplexityTol = true

/-- At an evaluation the run compares with the one before it. -/
theorem converged_evaluations (h : Evaluates f n) :
    Training.converged f (evaluations f p n) (p n) = true ↔ Converges f p (n + 1) := by
  rw [Training.converged, getLast?_evaluations h]
  obtain ⟨hpos, hn⟩ := h
  by_cases hle : 2 * f.evaluateEvery ≤ n + 1
  · rw [if_pos hle, Converges, show n + 1 - f.evaluateEvery - 1 = n - f.evaluateEvery by omega]
    simp [hpos, hn, hle]
  · simp [hle, Converges]

end Trace

/-! ## Stages -/

namespace Training

variable [Scalar α] [Arithmetic] [Generator γ] {σ τ : Type}

/-- The run after sweeps and merges alone. -/
def stage (t : Training α γ σ) : Nat → Training α γ σ
  | 0 => t
  | n + 1 => (stage t n).advance.2

/-- The model merged in the iteration `i`. -/
def modelAfter (t : Training α γ σ) (i : Nat) : Broadcast α := (t.stage (i + 1)).model

/-- The perplexity of the corpus after the iteration `i`, zero where it has none. -/
def perplexityAfter (t : Training α γ σ) (i : Nat) : α :=
  match (t.stage (i + 1)).perplexity with
  | .ok p => p
  | .error _ => Scalar.zero

/-- The run after `n` iterations that succeed. -/
def completed (f : FitOptions α) (t : Training α γ (List (Event α))) (n : Nat) :
    Training α γ (List (Event α)) :=
  { t.stage n with
    history := Trace.evaluations f t.perplexityAfter n
    watcher := Trace.events f t.modelAfter t.perplexityAfter n }

/-- The iteration `i` merges a model and has a perplexity if that is evaluated. -/
structure Completes (f : FitOptions α) (t : Training α γ σ) (i : Nat) : Prop where
  advance_ok : (t.stage i).advance.1 = .ok ()
  perplexity_ok : Trace.Evaluates f i → (t.stage (i + 1)).perplexity = .ok (t.perplexityAfter i)

/-- The run has failed in the iteration `i`, right after its first or its second event. -/
structure FailsAt (f : FitOptions α) (t : Training α γ (List (Event α))) (i : Nat)
    (failed : Training α γ (List (Event α))) : Prop where
  history_eq : failed.history = Trace.evaluations f t.perplexityAfter i
  events_eq :
    failed.watcher = Trace.events f t.modelAfter t.perplexityAfter i ++ [Event.before i] ∨
    (t.stage i).advance.1 = .ok () ∧ Trace.Evaluates f i ∧
      failed.watcher = Trace.events f t.modelAfter t.perplexityAfter i ++
        [Event.before i, .during i (t.modelAfter i)]

/-- How a run of at most `limit` iterations ends: it converges, does all iterations, or fails. -/
inductive Ends (f : FitOptions α) (t : Training α γ (List (Event α))) (limit : Nat) :
    Outcome α Unit × Training α γ (List (Event α)) → Prop where
  | finished {n : Nat} : n ≤ limit → (∀ i < n, t.Completes f i) →
      (IsLeast {m | m ≤ limit ∧ Trace.Converges f t.perplexityAfter m} n ∨
        (∀ m ≤ limit, ¬ Trace.Converges f t.perplexityAfter m) ∧ n = limit) →
      Ends f t limit (.ok (), t.completed f n)
  | failed {i : Nat} {e : Failure α} {t' : Training α γ (List (Event α))} : i < limit →
      (∀ j < i, t.Completes f j) →
      (∀ m ≤ i, ¬ Trace.Converges f t.perplexityAfter m) → t.FailsAt f i t' →
      Ends f t limit (.error e, t')

theorem iteration_advance {t : Training α γ σ} (h : t.advance.1 = .ok ()) :
    t.advance.2.model.iteration = unsigned 64 (t.model.iteration + 1) := by
  obtain ⟨w, g, tally, -, -, hreplace, hadvance⟩ := advance_ok h
  rw [hadvance]
  exact congrArg Broadcast.iteration (Broadcast.replace_of_ok hreplace)

/-- The number of iterations since a model without any. -/
theorem iteration_stage {t : Training α γ σ} (ht : t.model.iteration = 0) : ∀ {n : Nat},
    (∀ i < n, (t.stage i).advance.1 = .ok ()) → (t.stage n).model.iteration = unsigned 64 n
  | 0, _ => ht.trans Arithmetic.unsigned_zero.symm
  | n + 1, h => by
    rw [stage, iteration_advance (h n (Nat.lt_succ_self n)),
      iteration_stage ht fun i hi => h i (Nat.lt_succ_of_lt hi), Arithmetic.unsigned_add_left]

/-! ## Iterations -/

variable {f : FitOptions α} {t : Training α γ (List (Event α))}

theorem perplexityAfter_eq {n : Nat} {p : α} (h : (t.stage (n + 1)).perplexity = .ok p) :
    t.perplexityAfter n = p := by
  rw [perplexityAfter, h]

/-- The events of an iteration without and with an evaluation. -/
theorem completed_succ (f : FitOptions α) (t : Training α γ (List (Event α))) (n : Nat) :
    t.completed f (n + 1) = { t.stage (n + 1) with
      history := Trace.evaluations f t.perplexityAfter n ++
        if Trace.Evaluates f n then [(n, t.perplexityAfter n)] else []
      watcher := Trace.events f t.modelAfter t.perplexityAfter n ++
        Trace.step f t.modelAfter t.perplexityAfter n } := by
  rw [completed, Trace.events_succ, Trace.evaluations_succ]

/-- An iteration fails after its first or its second event, or completes. -/
theorem iterate_completed (f : FitOptions α) (t : Training α γ (List (Event α))) (n : Nat) :
    (∃ e t', (t.completed f n).iterate f record n = (.error e, t') ∧ t.FailsAt f n t') ∨
    t.Completes f n ∧ ∃ stop,
      (t.completed f n).iterate f record n = (.ok stop, t.completed f (n + 1)) ∧
      (stop = true ↔ Trace.Converges f t.perplexityAfter (n + 1)) := by
  have hadvance : ((t.completed f n).announce record (.before n)).advance = _ :=
    advance_with (t.stage n) _ _
  have hiterates := (t.completed f n).iterates f record n
  generalize (t.completed f n).iterate f record n = r at hiterates
  cases hiterates with
  | failed ha =>
    obtain ⟨-, rfl⟩ := Prod.mk.inj (hadvance.symm.trans ha)
    exact .inl ⟨_, _, rfl, rfl, .inl rfl⟩
  | merged ha he =>
    obtain ⟨hok, rfl⟩ := Prod.mk.inj (hadvance.symm.trans ha)
    rw [Trace.evaluatesAfter_eq, decide_eq_false_iff_not] at he
    refine .inr ⟨⟨hok, fun h => absurd h he⟩, false, ?_, ?_⟩
    · rw [completed_succ, Trace.step, if_neg he, if_neg he]
      simp [announce, record, completed, stage, modelAfter]
    · simp only [Bool.false_eq_true, false_iff]
      exact fun hconv => he ⟨hconv.1, hconv.2.1⟩
  | undefined ha he hp =>
    obtain ⟨hok, rfl⟩ := Prod.mk.inj (hadvance.symm.trans ha)
    rw [Trace.evaluatesAfter_eq, decide_eq_true_iff] at he
    refine .inl ⟨_, _, rfl, rfl, .inr ⟨hok, he, ?_⟩⟩
    exact List.append_assoc ..
  | @evaluated p _ ha he hp =>
    obtain ⟨hok, rfl⟩ := Prod.mk.inj (hadvance.symm.trans ha)
    rw [Trace.evaluatesAfter_eq, decide_eq_true_iff] at he
    obtain rfl := perplexityAfter_eq (t := t) (n := n) hp
    refine .inr ⟨⟨hok, fun _ => hp⟩, _, ?_, Trace.converged_evaluations he⟩
    rw [completed_succ, Trace.step, if_pos he, if_pos he]
    simp [announce, record, completed, stage, modelAfter]

/-! ## Runs -/

theorem run_completed : ∀ {k n : Nat}, (∀ i < n, t.Completes f i) →
    (∀ m ≤ n, ¬ Trace.Converges f t.perplexityAfter m) →
    t.Ends f (n + k) ((t.completed f n).run f record k n)
  | 0, n, hok, hconv => .finished (Nat.le_refl n) hok (.inr ⟨hconv, rfl⟩)
  | k + 1, n, hok, hconv => by
    rw [run]
    rcases iterate_completed f t n with ⟨e, t', hi, hfails⟩ | ⟨hone, stop, hi, hstop⟩
    · rw [hi]
      exact .failed (by omega) hok hconv hfails
    · rw [hi]
      have hok' : ∀ i < n + 1, t.Completes f i := fun i hlt =>
        (Nat.lt_succ_iff_lt_or_eq.1 hlt).elim (hok i) fun he => he ▸ hone
      cases stop with
      | true =>
        refine .finished (by omega) hok' (.inl ⟨⟨by omega, hstop.1 rfl⟩, fun m hm => ?_⟩)
        by_contra hlt
        exact hconv m (by omega) hm.2
      | false =>
        have hnext : ∀ m ≤ n + 1, ¬ Trace.Converges f t.perplexityAfter m := by
          intro m hm
          rcases Nat.lt_or_eq_of_le hm with hlt | rfl
          · exact hconv m (by omega)
          · exact fun h => Bool.false_ne_true (hstop.2 h)
        have hrest := run_completed (k := k) hok' hnext
        rwa [Nat.add_right_comm] at hrest

end Training

/-! ## Fits -/

namespace Model

section

variable [Scalar α] [Arithmetic] {σ : Type}

/-- The run of a worker with the given tally before its first iteration. -/
def startFrom (m : Model α) (w : Worker) (f : FitOptions α) (tally : Tally) (watcher : σ) :
    Training α Xoshiro σ where
  model := .ofTally m.options tally
  worker := w
  generator := .ofSeed f.seed
  history := []
  watcher := watcher

/-- What a fit leaves if the run of its worker is the given one. -/
def fitOfRun (m : Model α) (run : Outcome α Unit × Training α Xoshiro σ) : Fit α Unit σ where
  result := run.1
  model := { m with fitted := some run.2.model, history := run.2.history }
  watcher := run.2.watcher

/-- A fit of a worker is the run that is recorded, with the events shown to the watcher. -/
theorem fitWorker_eq {m : Model α} {w : Worker} {tally : Tally}
    (h : w.tally m.options = .ok tally) (f : FitOptions α) (notify : Event α → σ → σ)
    (watcher : σ) : (m.fitWorker w f notify watcher).1 =
      let run := (m.startFrom w f tally []).run f Training.record f.iters 0
      m.fitOfRun (run.1, run.2.shown notify watcher) := by
  have hrun : (m.startFrom w f tally watcher).run f notify f.iters 0 = _ :=
    Training.run_shown f.iters 0 (m.startFrom w f tally [])
  have hfit : (m.fitWorker w f notify watcher).1 =
      m.fitOfRun ((m.startFrom w f tally watcher).run f notify f.iters 0) := by
    rw [fitWorker, h]
    rfl
  rw [hfit, hrun]

/-- The trace of a fit. Without counts to start from nothing is announced and nothing changed. A fit
that succeeds has announced the events of its `n` iterations in order, and no others, each merged
model with the number of its iteration, in 64 bits; its history is the perplexities announced, and
it has stopped after the first iteration at which it had converged, else after the last. One that
fails is cut off right after it announced the start or the merged model of an iteration, with the
evaluations so far, and had not converged before. -/
theorem fitWorker_trace (m : Model α) (w : Worker) (f : FitOptions α) (notify : Event α → σ → σ)
    (watcher : σ) :
    let fit := (m.fitWorker w f notify watcher).1
    (∀ e, w.tally m.options = .error e →
      fit.result = .error e ∧ fit.model = m ∧ fit.watcher = watcher) ∧
    ∀ tally, w.tally m.options = .ok tally →
      let start := m.startFrom w f tally ([] : List (Event α))
      let b := start.modelAfter
      let p := start.perplexityAfter
      (fit.result = .ok () → ∃ n model, fit.model.fitted = some model ∧
        model.iteration = unsigned 64 n ∧
        (∀ i < n, (b i).iteration = unsigned 64 (i + 1) ∧
          (Trace.Evaluates f i → (start.stage (i + 1)).perplexity = .ok (p i))) ∧
        fit.watcher = Training.replay notify (Trace.events f b p n) watcher ∧
        fit.model.history = Trace.evaluations f p n ∧
        (IsLeast {m | m ≤ f.iters ∧ Trace.Converges f p m} n ∨
          (∀ m ≤ f.iters, ¬ Trace.Converges f p m) ∧ n = f.iters)) ∧
      ∀ e, fit.result = .error e → ∃ i < f.iters,
        (∀ j < i, (b j).iteration = unsigned 64 (j + 1) ∧
          (Trace.Evaluates f j → (start.stage (j + 1)).perplexity = .ok (p j))) ∧
        (∀ m ≤ i, ¬ Trace.Converges f p m) ∧
        fit.model.history = Trace.evaluations f p i ∧
        (fit.watcher = Training.replay notify (Trace.events f b p i ++ [.before i]) watcher ∨
          Trace.Evaluates f i ∧ (b i).iteration = unsigned 64 (i + 1) ∧
          fit.watcher = Training.replay notify
            (Trace.events f b p i ++ [.before i, .during i (b i)]) watcher) := by
  intro fit
  refine ⟨fun e he => ?_, fun tally htally => ?_⟩
  · have hfit : fit = ⟨.error e, m, watcher⟩ := by
      change (m.fitWorker w f notify watcher).1 = _
      rw [fitWorker, he]
    rw [hfit]
    exact ⟨rfl, rfl, rfl⟩
  intro start b p
  have hends : start.Ends f f.iters (start.run f Training.record f.iters 0) := by
    have hnone : ∀ m ≤ 0, ¬ Trace.Converges f p m := by
      rintro m hm ⟨hpos, -, hle, -⟩
      omega
    have hall : start.Ends f (0 + f.iters)
        ((start.completed f 0).run f Training.record f.iters 0) :=
      Training.run_completed (fun i hi => absurd hi (Nat.not_lt_zero i)) hnone
    rwa [Nat.zero_add] at hall
  have hfit : fit = m.fitOfRun _ := fitWorker_eq htally f notify watcher
  rw [hfit]
  change start.Ends f f.iters ((m.startFrom w f tally []).run f Training.record f.iters 0) at hends
  generalize (m.startFrom w f tally []).run f Training.record f.iters 0 = run at hends
  have hiteration : ∀ {n}, (∀ i < n, start.Completes f i) → ∀ i ≤ n,
      (start.stage i).model.iteration = unsigned 64 i := by
    intro n hall i hi
    exact Training.iteration_stage rfl fun j hj => (hall j (by omega)).advance_ok
  cases hends with
  | @finished n hn hall hleast =>
    refine ⟨fun _ => ⟨n, _, rfl, hiteration hall n (Nat.le_refl n), fun i hi => ?_, rfl, rfl,
      hleast⟩, fun e he => by cases he⟩
    exact ⟨hiteration hall (i + 1) hi, (hall i hi).perplexity_ok⟩
  | @failed i e t' hi hall hconv hfails =>
    refine ⟨fun he => (by cases he), fun _ _ =>
      ⟨i, hi, fun j hj => ?_, hconv, hfails.history_eq, ?_⟩⟩
    · exact ⟨hiteration hall (j + 1) hj, (hall j hj).perplexity_ok⟩
    · rcases hfails.events_eq with hevents | ⟨hok, he, hevents⟩
      · exact .inl (congrArg (Training.replay notify · watcher) hevents)
      · refine .inr ⟨he, ?_, congrArg (Training.replay notify · watcher) hevents⟩
        have hmerged : (b i).iteration = unsigned 64 ((start.stage i).model.iteration + 1) :=
          Training.iteration_advance hok
        rw [hmerged, hiteration hall i (Nat.le_refl i), Arithmetic.unsigned_add_left]

end

/-- Two documents, evaluated after every other iteration and without a tolerance, and no document,
which cannot be evaluated. -/
theorem fitWorker_trace_two_documents :
    let m : Model ℝ := .ofOptions ⟨3, 2, 1, 1⟩
    let w : Worker := .single {
      index := 0
      documents := [⟨0, [0, 2], [1, 2]⟩, ⟨1, [1], [1]⟩]
      states := [⟨[2, 1], [0, 1, 0]⟩, ⟨[0, 1], [1]⟩] }
    let f : FitOptions ℝ :=
      { seed := 7, iters := 5, workers := 1, predictSweeps := 20, evaluateEvery := 2,
        perplexityTol := Scalar.zero }
    let start := m.startFrom (.ofDocuments []) f .empty ([] : List (Event ℝ))
    (∃ fit, (m.fitWorker w f (fun _ n => n + 1) 0).1 = fit ∧ fit.result = .ok () ∧
      (∃ model, fit.model.fitted = some model ∧ model.iteration = 5) ∧
      fit.watcher = 17 ∧ fit.model.history.map Prod.fst = [1, 3]) ∧
    ∃ fit, (m.fitWorker (.ofDocuments []) f (fun _ n => n + 1) 0).1 = fit ∧
      fit.result = .error (.error .emptyCorpus) ∧
      ∃ i < 5, fit.model.history = Trace.evaluations f start.perplexityAfter i := by
  intro m w f start
  constructor
  · have ho : m.options.check = .ok () :=
      check_ok_iff.2 ⟨isProper_iff.2 one_pos, isProper_iff.2 one_pos, by decide, by decide⟩
    have hw : w.Assigned 2 := List.forall_mem_singleton.2
      ⟨rfl, .cons ⟨by decide, rfl, by decide, rfl⟩ (.cons ⟨by decide, rfl, by decide, rfl⟩ .nil)⟩
    have hd : ∀ d ∈ w.documents, d.checkWords (α := ℝ) 3 = .ok () := by decide
    obtain ⟨tally, htally, hholds⟩ := hw.tally (o := m.options) hd
    have hcounted : (m.startFrom w f tally 0).Counted m.options w.documents :=
      ⟨hd, rfl, rfl, by decide, hw, hholds.toCounts⟩
    have hrun : ((m.startFrom w f tally 0).run f (fun _ n => n + 1) f.iters 0).1 = .ok () :=
      hcounted.run_ok ho (.inr (by decide))
    have hresult : (m.fitWorker w f (fun _ n => n + 1) 0).1.result = .ok () := by
      rw [fitWorker, htally]
      exact hrun
    obtain ⟨hok, -⟩ := (fitWorker_trace m w f (fun _ n => n + 1) 0).2 tally htally
    obtain ⟨n, model, hmodel, hn, -, hwatcher, hhistory, hstop⟩ := hok hresult
    obtain rfl : n = 5 := by
      rcases hstop with ⟨⟨-, -, -, -, htol, -⟩, -⟩ | ⟨-, hlast⟩
      · simp [f, Scalar.lt] at htol
      · exact hlast
    generalize (m.fitWorker w f (fun _ n => n + 1) 0).1 = fit at hresult hmodel hwatcher hhistory
    refine ⟨fit, rfl, hresult, ⟨model, hmodel, hn⟩, ?_, ?_⟩
    · rw [hwatcher]
      unfold f
      rfl
    · rw [hhistory, Trace.evaluations, List.map_map]
      unfold f
      rfl
  · have hempty : (m.fitWorker (.ofDocuments []) f (fun _ n => n + 1) 0).1.result =
        .error (.error .emptyCorpus) := by
      unfold f m
      rfl
    have htally : (Worker.ofDocuments []).tally m.options = .ok .empty := rfl
    obtain ⟨-, herror⟩ :=
      (fitWorker_trace m (.ofDocuments []) f (fun _ n => n + 1) 0).2 .empty htally
    obtain ⟨i, hi, -, -, hhistory, -⟩ := herror _ hempty
    generalize (m.fitWorker (.ofDocuments []) f (fun _ n => n + 1) 0).1 = fit at hempty hhistory
    exact ⟨fit, rfl, hempty, i, hi, hhistory⟩

end Model

end TopicModel
