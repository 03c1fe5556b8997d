import Mathlib
import TopicModel.Proofs.Faults
import TopicModel.Proofs.Fit
import TopicModel.Proofs.Trace

/-!
# Fits that fail

A fit whose input fails a check changes nothing. Any other fit depends on the options of the model
alone, not on what was fitted before (`Model.fit_eq_fresh`).

A run stops with the model of its last completed iteration (`Training.StopsAfter`, `run_stops`): a
sweep that fails leaves the model as it is, and an evaluation never changes it. Since all iterations
completed so far have left a counted run (`Counted.stage`), two causes remain: a weight or a share
that is degenerate, and an evaluation without tokens (`Failure.EndsFit`).
-/

namespace TopicModel

open Arithmetic (unsigned)

variable {α γ σ : Type}

/-! ## Causes -/

/-- What can end a fit that has started: a degenerate weight, or an evaluation without tokens. -/
def Failure.EndsFit (ds : List Document) (e : Failure α) : Prop :=
  e.IsDegenerate ∨ e = .error .emptyCorpus ∧ (ds.map Document.tokenCount).sum = 0

theorem WeightCall.Raises.isDegenerate [Scalar α] {call : WeightCall} {o : Options α}
    {e : Failure α} (h : call.Raises o e) : e.IsDegenerate := by
  obtain ⟨topic, _, _, _, -, -, -, -, -, -, -, he⟩ := h
  exact ⟨call.word, topic, _, he⟩

theorem RaisesShare.isDegenerate [Scalar α] {o : Options α} {c : Counts} {e : Failure α}
    (h : RaisesShare o c e) : e.IsDegenerate := by
  obtain ⟨word, -, topic, -, -, he⟩ := h
  exact ⟨word, topic, _, he⟩

namespace Training

variable [Arithmetic] [Scalar α] [Generator γ] {o : Options α} {ds : List Document} {e : Failure α}

/-- A sweep and merge that fail leave the model as it is. -/
theorem model_of_advance_error {t : Training α γ σ} (h : t.advance.1 = .error e) :
    t.advance.2.model = t.model := by
  unfold advance at h ⊢
  dsimp only at h ⊢
  generalize t.worker.sweep t.model .train 1 t.generator = swept at h ⊢
  obtain ⟨e' | u, w, g⟩ := swept
  · rfl
  · dsimp only at h ⊢
    cases htally : w.tally t.model.options with
    | error e' => rfl
    | ok tally =>
      rw [htally] at h
      cases hr : (t.model.replace tally).1 with
      | ok u =>
        dsimp only at h
        rw [hr] at h
        cases h
      | error e' => exact Broadcast.replace_of_error hr

namespace Counted

variable {t : Training α γ σ}

/-- A sweep of a counted run is the only part of an iteration that can fail before the merge. -/
theorem advance_error (h : t.Counted o ds) (he : t.advance.1 = .error e) : e.IsDegenerate := by
  cases hs : (t.worker.sweep t.model .train 1 t.generator).1 with
  | ok u =>
    obtain ⟨t', hadvance, -⟩ := h.advance hs
    rw [hadvance] at he
    cases he
  | error e' =>
    have hsame : t.advance.1 = .error e' := by
      unfold Training.advance
      dsimp only
      generalize t.worker.sweep t.model .train 1 t.generator = swept at hs ⊢
      obtain ⟨e'' | u, w, g⟩ := swept
      · exact hs
      · cases hs
    obtain rfl := Except.error.inj (he.symm.trans hsame)
    obtain ⟨call, -, hraises⟩ := h.explains.raised e hs
    exact hraises.isDegenerate

omit [Generator γ] in
theorem perplexity_error (h : t.Counted o ds) (he : t.perplexity = .error e) : e.EndsFit ds := by
  unfold Training.perplexity at he
  cases hscore : t.worker.score t.model with
  | error e' =>
    rw [hscore] at he
    cases he
    exact .inl (h.score_error hscore).isDegenerate
  | ok q =>
    rw [hscore, Outcome.ok_bind, Perplexity.value] at he
    split at he
    · rename_i hzero
      cases he
      exact .inr ⟨rfl, (h.score_tokens hscore).symm.trans hzero⟩
    · cases he

/-- The run after iterations that succeed. -/
theorem stage (h : t.Counted o ds) : ∀ {n : Nat}, (∀ i < n, (t.stage i).advance.1 = .ok ()) →
    (t.stage n).Counted o ds
  | 0, _ => h
  | n + 1, hok => by
    have hlast := hok n (Nat.lt_succ_self n)
    have hn := h.stage fun i hi => hok i (Nat.lt_succ_of_lt hi)
    obtain ⟨t', hadvance, ht'⟩ := hn.advance (sweep_of_advance (Prod.ext hlast rfl))
    rw [Training.stage, hadvance]
    exact ht'

end Counted

/-! ## Where a run stops -/

/-- A run of at most `limit` iterations stops with `n` of them completed. The model is the one that
the last of these has merged, and a failure is that of the next sweep or of the last evaluation. -/
structure StopsAfter (f : FitOptions α) (t : Training α γ σ) (limit n : Nat)
    (result : Outcome α Unit) (model : Broadcast α) : Prop where
  le : n ≤ limit
  completed : ∀ i < n, (t.stage i).advance.1 = .ok ()
  model_eq : model = (t.stage n).model
  failed : ∀ e, result = .error e → (t.stage n).advance.1 = .error e ∨
    (∃ i, n = i + 1 ∧ Trace.Evaluates f i) ∧ (t.stage n).perplexity = .error e

variable {f : FitOptions α} {t t' : Training α γ (List (Event α))} {n : Nat}

/-- An iteration that fails keeps the model of the one before, or has merged its own. -/
theorem iterate_error (h : (t.completed f n).iterate f record n = (.error e, t')) :
    (t.stage n).advance.1 = .error e ∧ t'.model = (t.stage n).model ∨
    (t.stage n).advance.1 = .ok () ∧ Trace.Evaluates f n ∧
      (t.stage (n + 1)).perplexity = .error e ∧ t'.model = (t.stage (n + 1)).model := by
  have hadvance : ((t.completed f n).announce record (.before n)).advance = _ :=
    advance_with (t.stage n) _ _
  have hiterates := (t.completed f n).iterates f record n
  rw [h] at hiterates
  cases hiterates with
  | failed ha =>
    obtain ⟨herror, rfl⟩ := Prod.mk.inj (hadvance.symm.trans ha)
    exact .inl ⟨herror, model_of_advance_error herror⟩
  | undefined ha he hp =>
    obtain ⟨hok, rfl⟩ := Prod.mk.inj (hadvance.symm.trans ha)
    rw [Trace.evaluatesAfter_eq, decide_eq_true_iff] at he
    exact .inr ⟨hok, he, hp, rfl⟩

/-- Iterations that succeed without an evaluation are done, and the run goes on from there. -/
theorem run_unevaluated {l : Nat} : ∀ {k n : Nat},
    (∀ i, n ≤ i → i < n + k → (t.stage i).advance.1 = .ok () ∧ ¬ Trace.Evaluates f i) →
    (t.completed f n).run f record (k + l) n = (t.completed f (n + k)).run f record l (n + k)
  | 0, n, _ => by rw [Nat.zero_add, Nat.add_zero]
  | k + 1, n, h => by
    obtain ⟨hadvance, hnone⟩ := h n (Nat.le_refl n) (by omega)
    rw [Nat.succ_add, run]
    rcases iterate_completed f t n with ⟨e, t', hi, -⟩ | ⟨-, stop, hi, hstop⟩
    · rcases iterate_error hi with ⟨herror, -⟩ | ⟨-, heval, -⟩
      · rw [hadvance] at herror
        cases herror
      · exact absurd heval hnone
    · rw [hi]
      cases stop with
      | true =>
        obtain ⟨hpos, hdvd, -⟩ := hstop.1 rfl
        exact absurd ⟨hpos, hdvd⟩ hnone
      | false =>
        rw [show n + (k + 1) = n + 1 + k by omega]
        exact run_unevaluated fun i hi hlt => h i (by omega) (by omega)

theorem run_stops : ∀ {k n : Nat}, (∀ i < n, (t.stage i).advance.1 = .ok ()) →
    ∃ j, t.StopsAfter f (n + k) j ((t.completed f n).run f record k n).1
      ((t.completed f n).run f record k n).2.model
  | 0, n, hok => ⟨n, Nat.le_refl n, hok, rfl, fun e he => by cases he⟩
  | k + 1, n, hok => by
    rw [run]
    rcases iterate_completed f t n with ⟨e, t', hi, -⟩ | ⟨hone, stop, hi, -⟩
    · rw [hi]
      dsimp only
      rcases iterate_error hi with ⟨herror, hmodel⟩ | ⟨hadvance, heval, hundefined, hmodel⟩
      · refine ⟨n, by omega, hok, hmodel, fun e' he' => ?_⟩
        cases he'
        exact .inl herror
      · refine ⟨n + 1, by omega, fun i hlt => ?_, hmodel, fun e' he' => ?_⟩
        · exact (Nat.lt_succ_iff_lt_or_eq.1 hlt).elim (hok i) fun he => he ▸ hadvance
        · cases he'
          exact .inr ⟨⟨n, rfl, heval⟩, hundefined⟩
    · have hok' : ∀ i < n + 1, (t.stage i).advance.1 = .ok () := fun i hlt =>
        (Nat.lt_succ_iff_lt_or_eq.1 hlt).elim (hok i) fun he => he ▸ hone.advance_ok
      rw [hi]
      cases stop with
      | true => exact ⟨n + 1, by omega, hok', rfl, fun e he => by cases he⟩
      | false =>
        obtain ⟨j, hj⟩ := run_stops (k := k) hok'
        rw [Nat.add_right_comm] at hj
        exact ⟨j, hj⟩

/-- A run that has started from given counts stops for one of the two causes. -/
theorem StopsAfter.endsFit {t : Training α γ σ} {limit n : Nat} {model : Broadcast α}
    (h : t.StopsAfter f limit n (.error e) model) (ht : t.Counted o ds) : e.EndsFit ds := by
  have hn := ht.stage h.completed
  rcases h.failed e rfl with hadvance | ⟨-, hperplexity⟩
  · exact .inl (hn.advance_error hadvance)
  · exact hn.perplexity_error hperplexity

end Training

/-! ## Fits -/

namespace Model

section

variable [Arithmetic] [Scalar α] {m : Model α} {processors : Nat} {ds : List Document}
  {f : FitOptions α} {notify : Event α → σ → σ} {watcher : σ}

theorem fit_of_checkFit_error {e : Error α} (h : m.checkFit ds f = .error e) :
    m.fit processors ds f notify watcher = ⟨.error (.error e), m, watcher⟩ := by
  rw [fit, h]

/-- What a model was fitted to before does not matter to a fit that starts. -/
theorem fit_eq_fresh (h : m.checkFit ds f = .ok ()) (hroom : TokensHaveRoom ds) :
    m.fit processors ds f notify watcher =
      (ofOptions m.options).fit processors ds f notify watcher := by
  obtain ⟨t, hstart, -⟩ := start_counted h hroom processors watcher
  have hfresh : (ofOptions m.options).start processors ds f watcher = .ok t := hstart
  rw [fit_eq, fit_eq, hstart, hfresh]
  rfl

theorem start_fresh {t : Training α Xoshiro σ} (h : m.start processors ds f watcher = .ok t) :
    t.model.iteration = 0 ∧ t.history = [] ∧ t.watcher = watcher := by
  simp only [start, Outcome.bind_eq_ok_iff] at h
  obtain ⟨_, -, drawn, -, tally, -, ht⟩ := h
  cases ht
  exact ⟨rfl, rfl, rfl⟩

theorem start_completed {t : Training α Xoshiro (List (Event α))}
    (h : m.start processors ds f [] = .ok t) : t.completed f 0 = t := by
  obtain ⟨-, hhistory, hwatcher⟩ := start_fresh h
  obtain ⟨_, _, _, _, _⟩ := t
  obtain rfl := hhistory
  obtain rfl := hwatcher
  rfl

/-- A fit that starts leaves the model of the last iteration that it completes. -/
theorem fit_stops (h : m.checkFit ds f = .ok ()) (hroom : TokensHaveRoom ds) (processors : Nat)
    (notify : Event α → σ → σ) (watcher : σ) :
    ∃ start n b, m.start processors ds f ([] : List (Event α)) = .ok start ∧
      start.Counted m.options ds ∧ start.model.iteration = 0 ∧
      (m.fit processors ds f notify watcher).model.options = m.options ∧
      (m.fit processors ds f notify watcher).model.fitted = some b ∧
      start.StopsAfter f f.iters n
        ((m.fit processors ds f notify watcher).result.map fun _ => ()) b := by
  obtain ⟨start, hstart, hcounted, -⟩ := start_counted h hroom processors ([] : List (Event α))
  obtain ⟨hiteration, -⟩ := start_fresh hstart
  obtain ⟨n, hstops⟩ := Training.run_stops (f := f) (t := start) (k := f.iters) (n := 0)
    fun i hi => absurd hi (Nat.not_lt_zero i)
  rw [start_completed hstart, Nat.zero_add] at hstops
  rw [fit_recorded, fit_eq, hstart]
  refine ⟨start, n, _, rfl, hcounted, hiteration, rfl, rfl, ?_⟩
  dsimp only [fitOf]
  cases hresult : (start.run f Training.record f.iters 0).1 with
  | error e => rwa [hresult] at hstops
  | ok u => rwa [hresult] at hstops

end

end Model

end TopicModel
