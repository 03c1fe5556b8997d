import Mathlib
import TopicModel.Model
import TopicModel.Proofs.Broadcast
import TopicModel.Proofs.Worker

/-!
# Runs

* Watchers do not change a run: a run that shows its events to a watcher is the run that only
  records them, with the events replayed afterwards (`run_shown`).
* `Training.Iterates` says what an iteration does, case by case (`iterates`).
* `t.Counted o ds`: between iterations the run `t` holds the documents `ds`, for whose tokens there
  is room, every partition is assigned, and the model counts exactly the tokens of the corpus. A
  sweep that succeeds is followed by a merge that succeeds and keeps this (`Counted.advance`), and
  so does a run (`Counted.run`).
* `e.Recounts V ds`: a model that the event `e` shows is consistent and has as many tokens of each
  word as the documents. A run records no other models (`run_recounts`), also when it fails.
* A fit is its checks, a start from drawn topics (`Model.start`) and the run from there
  (`Model.fit_eq`).
-/

namespace TopicModel

variable {α γ σ τ : Type}

namespace Training

/-! ## Watchers -/

/-- The run with another watcher. -/
def withWatcher (t : Training α γ σ) (watcher : τ) : Training α γ τ :=
  ⟨t.model, t.worker, t.generator, t.history, watcher⟩

/-- The watcher that writes the events down. -/
def record (event : Event α) (events : List (Event α)) : List (Event α) := events ++ [event]

/-- The state of a watcher that is shown recorded events. -/
def replay (notify : Event α → σ → σ) (events : List (Event α)) (watcher : σ) : σ :=
  events.foldl (fun s event => notify event s) watcher

/-- The run with a watcher that has been shown what is recorded. -/
def shown (notify : Event α → σ → σ) (watcher : σ) (t : Training α γ (List (Event α))) :
    Training α γ σ :=
  t.withWatcher (replay notify t.watcher watcher)

section
variable {o : FitOptions α} {notify : Event α → σ → σ} {watcher : σ}

@[simp] theorem model_shown (t : Training α γ (List (Event α))) :
    (t.shown notify watcher).model = t.model := rfl

@[simp] theorem worker_shown (t : Training α γ (List (Event α))) :
    (t.shown notify watcher).worker = t.worker := rfl

theorem announce_shown (t : Training α γ (List (Event α))) (event : Event α) :
    (t.shown notify watcher).announce notify event =
      (t.announce record event).shown notify watcher := by
  have hreplay : notify event (replay notify t.watcher watcher) =
      replay notify (record event t.watcher) watcher := by
    rw [replay, replay, record, List.foldl_append]
    rfl
  exact congrArg (t.withWatcher ·) hreplay

variable [Arithmetic] [Scalar α]

theorem evaluate_shown (i : Nat) (t : Training α γ (List (Event α))) :
    evaluate o notify i (t.shown notify watcher) =
      ((evaluate o record i t).1, (evaluate o record i t).2.shown notify watcher) := by
  unfold evaluate
  simp only [worker_shown, model_shown]
  split
  · rfl
  · exact congrArg (Prod.mk _) (announce_shown { t with history := t.history ++ [(i, _)] } _)

variable [Generator γ]

/-- A sweep and merge neither read nor change the history and the watcher. -/
theorem advance_with (t : Training α γ σ) (history : List (Nat × α)) (x : τ) :
    (⟨t.model, t.worker, t.generator, history, x⟩ : Training α γ τ).advance =
      (t.advance.1,
        ⟨t.advance.2.model, t.advance.2.worker, t.advance.2.generator, history, x⟩) := by
  unfold advance
  dsimp only
  rcases t.worker.sweep t.model .train 1 t.generator with ⟨_ | _, w, g⟩
  · rfl
  · dsimp only
    cases w.tally t.model.options <;> rfl

theorem advance_history (t : Training α γ σ) : t.advance.2.history = t.history :=
  congrArg (fun r => r.2.history) (advance_with t t.history t.watcher)

theorem advance_watcher (t : Training α γ σ) : t.advance.2.watcher = t.watcher :=
  congrArg (fun r => r.2.watcher) (advance_with t t.history t.watcher)

theorem advance_withWatcher (t : Training α γ σ) (x : τ) :
    (t.withWatcher x).advance = (t.advance.1, t.advance.2.withWatcher x) := by
  rw [withWatcher, advance_with, withWatcher, advance_history]

theorem iterate_shown (i : Nat) (t : Training α γ (List (Event α))) :
    iterate o notify i (t.shown notify watcher) =
      ((iterate o record i t).1, (iterate o record i t).2.shown notify watcher) := by
  have hadvance : (t.shown notify watcher |>.announce notify (.before i)).advance =
      ((t.announce record (.before i)).advance.1,
        (t.announce record (.before i)).advance.2.shown notify watcher) := by
    rw [announce_shown, shown, advance_withWatcher, shown, advance_watcher]
  unfold iterate
  rw [hadvance]
  rcases (t.announce record (.before i)).advance with ⟨_ | _, t'⟩
  · rfl
  · dsimp only
    rw [model_shown, announce_shown]
    by_cases he : evaluatesAfter o i
    · rw [if_pos he, if_pos he, evaluate_shown]
      rcases evaluate o record i (t'.announce record (.during i t'.model)) with ⟨_ | stop, t''⟩
      · rfl
      · exact congrArg (Prod.mk _) (announce_shown t'' (.after i))
    · rw [if_neg he, if_neg he]
      exact congrArg (Prod.mk _) (announce_shown _ (.after i))

/-- Watching a run shows the watcher the recorded events and changes nothing else. -/
theorem run_shown : ∀ (n i : Nat) (t : Training α γ (List (Event α))),
    run o notify n i (t.shown notify watcher) =
      ((run o record n i t).1, (run o record n i t).2.shown notify watcher)
  | 0, _, _ => rfl
  | n + 1, i, t => by
    rw [run, run, iterate_shown]
    rcases iterate o record i t with ⟨_ | stop, t'⟩
    · rfl
    · cases stop with
      | true => rfl
      | false => exact run_shown n (i + 1) t'

end

/-! ## Iterations -/

section
variable [Arithmetic] [Scalar α] [Generator γ]

/-- A sweep and merge that succeed. -/
theorem advance_ok {t : Training α γ σ} (h : t.advance.1 = .ok ()) : ∃ w g tally,
    t.worker.sweep t.model .train 1 t.generator = (.ok (), w, g) ∧
    w.tally t.model.options = .ok tally ∧ (t.model.replace tally).1 = .ok () ∧
    t.advance.2 = ⟨(t.model.replace tally).2, w, g, t.history, t.watcher⟩ := by
  unfold advance at h ⊢
  dsimp only at h ⊢
  generalize t.worker.sweep t.model .train 1 t.generator = swept at h ⊢
  obtain ⟨e | u, w, g⟩ := swept
  · cases h
  · dsimp only at h ⊢
    cases htally : w.tally t.model.options with
    | error e =>
      rw [htally] at h
      cases h
    | ok tally =>
      refine ⟨w, g, tally, rfl, htally, ?_, rfl⟩
      rw [htally] at h
      cases hr : (t.model.replace tally).1 with
      | ok u => rfl
      | error e =>
        dsimp only at h
        rw [hr] at h
        cases h

/-- The perplexity of the corpus under the model of the run. -/
def perplexity (t : Training α γ σ) : Outcome α α := do
  let score ← t.worker.score t.model
  Outcome.ofCheck score.value

/-- What an iteration does: it fails in its sweep or merge, or goes on without an evaluation, or
fails in the evaluation, or goes on with one. -/
inductive Iterates (f : FitOptions α) (notify : Event α → σ → σ) (i : Nat) (t : Training α γ σ) :
    Outcome α Bool × Training α γ σ → Prop where
  | failed {e : Failure α} {t' : Training α γ σ} :
      (t.announce notify (.before i)).advance = (.error e, t') →
      Iterates f notify i t (.error e, t')
  | merged {t' : Training α γ σ} :
      (t.announce notify (.before i)).advance = (.ok (), t') → evaluatesAfter f i = false →
      Iterates f notify i t
        (.ok false, (t'.announce notify (.during i t'.model)).announce notify (.after i))
  | undefined {e : Failure α} {t' : Training α γ σ} :
      (t.announce notify (.before i)).advance = (.ok (), t') → evaluatesAfter f i = true →
      t'.perplexity = .error e →
      Iterates f notify i t (.error e, t'.announce notify (.during i t'.model))
  | evaluated {p : α} {t' : Training α γ σ} :
      (t.announce notify (.before i)).advance = (.ok (), t') → evaluatesAfter f i = true →
      t'.perplexity = .ok p →
      Iterates f notify i t (.ok (converged f t'.history p),
        (({ t' with history := t'.history ++ [(i, p)] }.announce notify
          (.during i t'.model)).announce notify (.evaluated i p)).announce notify (.after i))

theorem iterates (f : FitOptions α) (notify : Event α → σ → σ) (i : Nat) (t : Training α γ σ) :
    t.Iterates f notify i (t.iterate f notify i) := by
  unfold iterate
  rcases hadvance : (t.announce notify (.before i)).advance with ⟨_ | u, t'⟩
  · exact .failed hadvance
  · dsimp only
    cases he : evaluatesAfter f i with
    | false => exact .merged hadvance he
    | true =>
      unfold evaluate
      cases hp : t'.perplexity with
      | error e =>
        have := Iterates.undefined hadvance he hp
        rw [perplexity] at hp
        simpa [announce, hp] using this
      | ok p =>
        have := Iterates.evaluated hadvance he hp
        rw [perplexity] at hp
        simpa [announce, hp] using this

section
variable {P : Broadcast α → Prop} (hreplace : ∀ b tally, P b → P (b.replace tally).2)
include hreplace

/-- What every replacement of the counts keeps of the model, a sweep and merge keep. -/
theorem advance_keeps {t : Training α γ σ} (h : P t.model) : P t.advance.2.model := by
  unfold advance
  dsimp only
  rcases t.worker.sweep t.model .train 1 t.generator with ⟨_ | _, w, g⟩
  · exact h
  · dsimp only
    cases w.tally t.model.options with
    | error e => exact h
    | ok tally => exact hreplace _ _ h

theorem iterate_keeps {f : FitOptions α} {notify : Event α → σ → σ} {i : Nat}
    {t : Training α γ σ} (h : P t.model) : P (t.iterate f notify i).2.model := by
  have hadvance : P (t.announce notify (.before i)).advance.2.model := advance_keeps hreplace h
  have hiterates := t.iterates f notify i
  generalize t.iterate f notify i = r at hiterates
  cases hiterates with
  | failed ha => rwa [ha] at hadvance
  | merged ha _ => rwa [ha] at hadvance
  | undefined ha _ _ => rwa [ha] at hadvance
  | evaluated ha _ _ => rwa [ha] at hadvance

/-- A run keeps it, also one that fails. -/
theorem run_keeps {f : FitOptions α} {notify : Event α → σ → σ} : ∀ {n i : Nat}
    {t : Training α γ σ}, P t.model → P (t.run f notify n i).2.model
  | 0, _, _, h => h
  | n + 1, i, t, h => by
    have hone : P (t.iterate f notify i).2.model := iterate_keeps hreplace h
    rw [run]
    rcases hi : t.iterate f notify i with ⟨_ | stop, t'⟩
    · rwa [hi] at hone
    · rw [hi] at hone
      cases stop with
      | true => exact hone
      | false => exact run_keeps hone

end

end

/-! ## Counts -/

variable [Arithmetic]

/-- The run is between two iterations: it holds the documents, which have been checked, each with a
state that fits it, and its model counts exactly their tokens. -/
structure Counted (o : Options α) (ds : List Document) (t : Training α γ σ) : Prop where
  checked : ∀ d ∈ ds, d.checkWords (α := α) o.vocSize = .ok ()
  options_eq : t.model.options = o
  documents_eq : t.worker.documents = ds
  hasRoom : TokensHaveRoom ds
  assigned : t.worker.Assigned o.topicNum
  tallies : t.model.counts.Tallies o.vocSize o.topicNum t.worker.tokens

section
variable {o : Options α} {f : FitOptions α} {notify : Event α → σ → σ} {ds : List Document}

/-- Neither watchers nor the history matter. -/
theorem Counted.congr {t t' : Training α γ σ} (h : t.Counted o ds) (hm : t'.model = t.model)
    (hw : t'.worker = t.worker) : t'.Counted o ds where
  checked := h.checked
  options_eq := by rw [hm, h.options_eq]
  documents_eq := by rw [hw, h.documents_eq]
  hasRoom := h.hasRoom
  assigned := by rw [hw]; exact h.assigned
  tallies := by rw [hm, hw]; exact h.tallies

theorem Counted.hasRoom_tokens {t : Training α γ σ} (h : t.Counted o ds) :
    Arithmetic.HasRoom t.worker.tokens.length := by
  obtain ⟨hd, -, rfl, hroom, hw, -⟩ := h
  exact hw.hasRoom hd hroom

theorem replace_ok {b : Broadcast α} {r : Tally} {xs ys : List (Nat × Nat)} {K V : Nat}
    (hv : b.options.vocSize = V) (hk : b.options.topicNum = K) (hb : b.counts.Tallies V K xs)
    (hr : r.Holds V K ys) :
    b.replace r =
      (.ok (), ⟨b.options, r.toCounts V K, Arithmetic.unsigned 64 (b.iteration + 1)⟩) := by
  subst hv hk
  have hshape := hr.toCounts
  have hok : (b.replace r).1 = .ok () := Broadcast.replace_ok_iff.2
    ⟨hshape.vocSize_eq.trans hb.vocSize_eq.symm, hshape.topicNum_eq.trans hb.topicNum_eq.symm⟩
  exact Prod.ext hok (Broadcast.replace_of_ok hok)

variable [Scalar α] [Generator γ]

theorem sweep_of_advance {t t' : Training α γ σ} (h : t.advance = (.ok (), t')) :
    (t.worker.sweep t.model .train 1 t.generator).1 = .ok () := by
  obtain ⟨w, g, tally, hsweep, -⟩ := advance_ok (congrArg Prod.fst h)
  rw [hsweep]

/-- After a sweep that succeeds the counts are gathered and merged without failure. -/
theorem Counted.advance {t : Training α γ σ} (h : t.Counted o ds)
    (hs : (t.worker.sweep t.model .train 1 t.generator).1 = .ok ()) :
    ∃ t', t.advance = (.ok (), t') ∧ t'.Counted o ds := by
  have hassigned : t.worker.Assigned t.model.options.topicNum := by
    rw [h.options_eq]
    exact h.assigned
  obtain ⟨hdocs, hw⟩ := hassigned.sweep t.model .train 1 t.generator
  unfold Training.advance
  dsimp only
  generalize t.worker.sweep t.model .train 1 t.generator = swept at hdocs hw hs ⊢
  obtain ⟨_ | u, w, g⟩ := swept
  · cases hs
  · rw [h.documents_eq] at hdocs
    rw [h.options_eq] at hw
    dsimp only at hdocs hw ⊢
    obtain ⟨r, htally, hr⟩ := hw.tally (α := α) (o := o) (by rw [hdocs]; exact h.checked)
    -- the merged counts have the shape of those that they replace
    have hreplace := replace_ok (congrArg Options.vocSize h.options_eq)
      (congrArg Options.topicNum h.options_eq) h.tallies hr
    rw [h.options_eq, htally]
    dsimp only
    rw [hreplace]
    exact ⟨_, rfl, h.checked, h.options_eq, hdocs, h.hasRoom, hw, hr.toCounts⟩

/-- The run after the sweep and merge of an iteration. -/
theorem Counted.advanced {t t' : Training α γ σ} {event : Event α} (h : t.Counted o ds)
    (ha : (t.announce notify event).advance = (.ok (), t')) : t'.Counted o ds := by
  have hbefore : (t.announce notify event).Counted o ds := h.congr rfl rfl
  obtain ⟨t₁, hadvance, h₁⟩ := hbefore.advance (sweep_of_advance ha)
  rw [ha] at hadvance
  cases hadvance
  exact h₁

theorem Counted.iterate {i : Nat} {t t' : Training α γ σ} {stop : Bool} (h : t.Counted o ds)
    (hi : t.iterate f notify i = (.ok stop, t')) : t'.Counted o ds := by
  have hiterates := t.iterates f notify i
  rw [hi] at hiterates
  cases hiterates with
  | merged ha _ => exact (h.advanced ha).congr rfl rfl
  | evaluated ha _ _ => exact (h.advanced ha).congr rfl rfl

theorem Counted.run : ∀ {n i : Nat} {t : Training α γ σ}, t.Counted o ds →
    (t.run f notify n i).1 = .ok () → (t.run f notify n i).2.Counted o ds
  | 0, _, _, h, _ => h
  | n + 1, i, t, h, hr => by
    rw [Training.run] at hr ⊢
    rcases hi : t.iterate f notify i with ⟨_ | stop, t'⟩
    · rw [hi] at hr
      cases hr
    · rw [hi] at hr
      cases stop with
      | true => exact h.iterate hi
      | false => exact (h.iterate hi).run hr

/-- The states from which the iterations of a run sweep. -/
def sweptFrom (f : FitOptions α) (notify : Event α → σ → σ) :
    (n i : Nat) → Training α γ σ → List (Training α γ σ)
  | 0, _, _ => []
  | n + 1, i, t =>
    t.announce notify (.before i) ::
      match t.iterate f notify i with
      | (.ok false, t) => sweptFrom f notify n (i + 1) t
      | _ => []

theorem Counted.sweptFrom : ∀ {n i : Nat} {t : Training α γ σ}, t.Counted o ds →
    ∀ t' ∈ t.sweptFrom f notify n i, t'.Counted o ds
  | 0, _, _, _ => by simp [Training.sweptFrom]
  | n + 1, i, t, h => by
    rw [Training.sweptFrom]
    refine List.forall_mem_cons.2 ⟨h.congr rfl rfl, ?_⟩
    rcases hi : t.iterate f notify i with ⟨_ | stop, t'⟩
    · simp
    · cases stop with
      | true => simp
      | false => exact (h.iterate hi).sweptFrom

end

end Training

/-! ## Events -/

/-- A model that the event shows is consistent, and each of its rows sums to the occurrences of its
word in the documents. -/
def Event.Recounts [Arithmetic] (V : Nat) (ds : List Document) : Event α → Prop
  | .during _ b => b.counts.isConsistent = true ∧ ∀ w < V,
    (b.counts.row? w).map List.sum = some ((ds.flatMap Document.tokens).count w : Int)
  | _ => True

namespace Training

section
variable [Arithmetic] {o : Options α} {f : FitOptions α} {ds : List Document}

theorem recounts_record {V : Nat} {event : Event α} {events : List (Event α)}
    (hs : ∀ e ∈ events, e.Recounts V ds) (he : event.Recounts V ds) :
    ∀ e ∈ record event events, e.Recounts V ds :=
  List.forall_mem_append.2 ⟨hs, List.forall_mem_singleton.2 he⟩

/-- The model of a counted run is consistent and has its documents' words. -/
theorem Counted.recounts {t : Training α γ σ} (h : t.Counted o ds) (i : Nat) :
    (Event.during i t.model).Recounts o.vocSize ds := by
  have hchecked : ∀ d ∈ t.worker.documents, d.checkWords (α := α) o.vocSize = .ok () := by
    rw [h.documents_eq]
    exact h.checked
  obtain ⟨hin, hwords⟩ := h.assigned.within hchecked
  rw [h.documents_eq] at hwords
  refine ⟨h.tallies.isConsistent hin, fun w hw => ?_⟩
  rw [h.tallies.row_sum h.hasRoom_tokens hin hw, hwords]

variable [Scalar α] [Generator γ]

theorem iterate_recounts {i : Nat} {t : Training α γ (List (Event α))} (h : t.Counted o ds)
    (ht : ∀ e ∈ t.watcher, e.Recounts o.vocSize ds) :
    ∀ e ∈ (t.iterate f record i).2.watcher, e.Recounts o.vocSize ds := by
  have hadvanced : ∀ {r t'}, (t.announce record (.before i)).advance = (r, t') →
      ∀ e ∈ t'.watcher, e.Recounts o.vocSize ds := by
    intro r t' ha
    have hwatcher := advance_watcher (t.announce record (.before i))
    rw [ha] at hwatcher
    rw [hwatcher]
    exact recounts_record ht trivial
  have hduring : ∀ {t'}, (t.announce record (.before i)).advance = (.ok (), t') →
      ∀ e ∈ (t'.announce record (.during i t'.model)).watcher, e.Recounts o.vocSize ds :=
    fun ha => recounts_record (hadvanced ha) ((h.advanced ha).recounts i)
  have hiterates := t.iterates f record i
  generalize t.iterate f record i = r at hiterates
  cases hiterates with
  | failed ha => exact hadvanced ha
  | merged ha _ => exact recounts_record (hduring ha) trivial
  | undefined ha _ _ => exact hduring ha
  | evaluated ha _ _ =>
    have hmerged := hduring ha
    exact recounts_record (recounts_record hmerged trivial) trivial

theorem run_recounts : ∀ {n i : Nat} {t : Training α γ (List (Event α))}, t.Counted o ds →
    (∀ e ∈ t.watcher, e.Recounts o.vocSize ds) →
    ∀ e ∈ (t.run f record n i).2.watcher, e.Recounts o.vocSize ds
  | 0, _, _, _, ht => ht
  | n + 1, i, t, h, ht => by
    have hevents := iterate_recounts (f := f) (i := i) h ht
    rw [Training.run]
    rcases hi : t.iterate f record i with ⟨_ | stop, t'⟩
    · rw [hi] at hevents
      exact hevents
    · rw [hi] at hevents
      cases stop with
      | true => exact hevents
      | false => exact run_recounts (h.iterate hi) hevents

end

end Training

/-! ## Fits -/

namespace Model

variable {m : Model α} {processors : Nat} {ds : List Document} {f : FitOptions α}

theorem checkDocuments_ok_iff {o : Options α} : ∀ {ds : List Document},
    checkDocuments o ds = .ok () ↔ ∀ d ∈ ds, d.checkWords (α := α) o.vocSize = .ok ()
  | [] => by simp [checkDocuments]
  | d :: ds => by
    rw [checkDocuments, List.forall_mem_cons, ← checkDocuments_ok_iff]
    cases d.checkWords (α := α) o.vocSize with
    | error e => simp
    | ok u => simp

variable [Scalar α]

/-- What has been checked before a fit starts. -/
theorem checkFit_ok_iff : m.checkFit ds f = .ok () ↔ m.options.check = .ok () ∧
    f.check = .ok () ∧ ∀ d ∈ ds, d.checkWords (α := α) m.options.vocSize = .ok () := by
  unfold checkFit
  rw [← checkDocuments_ok_iff]
  cases m.options.check with
  | error e => simp
  | ok u =>
    cases f.check with
    | error e => simp
    | ok u => simp

theorem check_ok_iff {o : Options α} : o.check = .ok () ↔ Scalar.isProper o.alpha = true ∧
    Scalar.isProper o.beta = true ∧ 0 < o.vocSize ∧ 0 < o.topicNum := by
  unfold Options.check
  cases Scalar.isProper o.alpha <;> cases Scalar.isProper o.beta <;>
    simp [Nat.pos_iff_ne_zero]
  split <;> simp_all

variable [Arithmetic]

/-- The run of a fit before its first iteration: the corpus with drawn topics and their counts. -/
def start (m : Model α) (processors : Nat) (ds : List Document) (f : FitOptions α) (watcher : σ) :
    Outcome α (Training α Xoshiro σ) := do
  Outcome.ofCheck (m.checkFit ds f)
  let (worker, _) ← Outcome.ofFault ((Worker.forCorpus ds (partitionsFor processors f.workers)).init
    m.options.topicNum (Xoshiro.ofSeed f.seed))
  let tally ← worker.tally m.options
  return {
    model := .ofTally m.options tally
    worker := worker
    generator := .ofSeed f.seed
    history := []
    watcher := watcher }

/-- What a fit leaves if its run is the given one. -/
def fitOf (m : Model α) : Outcome α Unit × Training α Xoshiro σ → Fit α (List TopicDocument) σ
  | (result, t) =>
    { result := result.map fun () => t.worker.results
      model := { m with fitted := some t.model, history := t.history }
      watcher := t.watcher }

/-- A fit is its start and the run from there. -/
theorem fit_eq (notify : Event α → σ → σ) (watcher : σ) :
    m.fit processors ds f notify watcher =
      match m.start processors ds f watcher with
      | .error e => { result := .error e, model := m, watcher := watcher }
      | .ok t => m.fitOf (t.run f notify f.iters 0) := by
  unfold fit start
  cases m.checkFit ds f with
  | error e => rfl
  | ok u =>
    simp only [Outcome.ofCheck_ok, Outcome.ok_bind]
    cases (Worker.forCorpus ds (partitionsFor processors f.workers)).init m.options.topicNum
      (Xoshiro.ofSeed f.seed) with
    | error e => rfl
    | ok drawn =>
      obtain ⟨w, g⟩ := drawn
      simp only [Outcome.ofFault_ok, Outcome.ok_bind]
      unfold fitWorker
      cases w.tally m.options with
      | error e => rfl
      | ok r => rfl

theorem start_withWatcher (watcher : σ) : m.start processors ds f watcher =
    (m.start processors ds f ([] : List (Event α))).map (·.withWatcher watcher) := by
  unfold start
  cases m.checkFit ds f with
  | error e => rfl
  | ok u =>
    simp only [Outcome.ofCheck_ok, Outcome.ok_bind]
    cases (Worker.forCorpus ds (partitionsFor processors f.workers)).init m.options.topicNum
      (Xoshiro.ofSeed f.seed) with
    | error e => rfl
    | ok drawn =>
      obtain ⟨w, g⟩ := drawn
      simp only [Outcome.ofFault_ok, Outcome.ok_bind]
      cases w.tally m.options with
      | error e => rfl
      | ok r => rfl

theorem start_watcher {watcher : σ} {t : Training α Xoshiro σ}
    (h : m.start processors ds f watcher = .ok t) : t.watcher = watcher := by
  rw [start_withWatcher] at h
  cases hs : m.start processors ds f ([] : List (Event α)) with
  | error e =>
    rw [hs] at h
    cases h
  | ok t' =>
    rw [hs] at h
    cases h
    rfl

/-- The start of a fit whose input passes the checks is counted. -/
theorem start_counted (h : m.checkFit ds f = .ok ()) (hroom : TokensHaveRoom ds)
    (processors : Nat) (watcher : σ) :
    ∃ t, m.start processors ds f watcher = .ok t ∧ t.Counted m.options ds ∧
      t.watcher = watcher := by
  obtain ⟨ho, -, hd⟩ := checkFit_ok_iff.1 h
  have hK := (check_ok_iff.1 ho).2.2.2
  obtain ⟨w, g, hinit, hdocs, hw⟩ := Worker.init_forCorpus hK
    (fun _ => hroom.of_mem) (partitionsFor processors f.workers) (Xoshiro.ofSeed f.seed)
  obtain ⟨r, htally, hr⟩ := hw.tally (α := α) (o := m.options) (by rwa [hdocs])
  refine ⟨⟨.ofTally m.options r, w, .ofSeed f.seed, [], watcher⟩, ?_,
    ⟨hd, rfl, hdocs, hroom, hw, hr.toCounts⟩, rfl⟩
  simp only [start, h, hinit, htally, Outcome.ofCheck_ok, Outcome.ofFault_ok, Outcome.ok_bind]
  rfl

theorem checkFit_of_start {t : Training α Xoshiro σ} {watcher : σ}
    (h : m.start processors ds f watcher = .ok t) : m.checkFit ds f = .ok () := by
  unfold start at h
  cases hc : m.checkFit ds f with
  | error e =>
    rw [hc] at h
    cases h
  | ok u => rfl

end Model

end TopicModel
