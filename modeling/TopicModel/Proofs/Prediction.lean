import Mathlib
import TopicModel.Proofs.Failures
import TopicModel.Proofs.Restored

/-!
# Predictions

A frozen sweep goes through the same cache and the same sampler as training. Yet it leaves all
counts as they are (`sample_frozen`), so that it is `inferAll`: the documents are resampled one
after the other against counts that are an argument and nothing else, and only the generator is
handed on. `Worker.infer` does so for partitions, and a frozen sweep of a worker gives the same
states or the same failure (`Worker.sweep_frozen`).

Whatever has become of a model, the counts that it is fitted to have the dimensions of its options
(`Model.Reachable.ready`). No check but those of the input can then refuse a document, and what is
left are degenerate weights (`inferAll_error`).
-/

namespace TopicModel

section

variable {α γ : Type} [Arithmetic] [Scalar α] [Generator γ] {o : Options α} {c : Counts} {g : γ}
  {sweeps word old : Nat} {tc : List Int} {e : Failure α}

/-! ## Inference -/

/-- Resamples documents against given counts, handing on nothing but the generator. -/
def inferAll (o : Options α) (sweeps : Nat) (c : Counts) :
    List (Document × TopicState) → γ → Outcome α (List TopicState) × γ
  | [], g => (.ok [], g)
  | (d, s) :: rest, g =>
    match sample o .frozen sweeps d s c g with
    | (.error e, _, g) => (.error e, g)
    | (.ok s, _, g) =>
      match inferAll o sweeps c rest g with
      | (.error e, g) => (.error e, g)
      | (.ok states, g) => (.ok (s :: states), g)

theorem sampleAll_frozen (pairs : List (Document × TopicState)) :
    sampleAll o .frozen sweeps pairs c g =
      ((inferAll o sweeps c pairs g).1, c, (inferAll o sweeps c pairs g).2) := by
  induction pairs generalizing g with
  | nil => rfl
  | cons x rest ih =>
    obtain ⟨d, s⟩ := x
    have hone : (sample o .frozen sweeps d s c g).2.1 = c := sample_frozen
    rw [sampleAll, inferAll]
    generalize sample o .frozen sweeps d s c g = one at hone ⊢
    obtain ⟨e | s', c₁, g₁⟩ := one
    · obtain rfl := hone
      rfl
    · obtain rfl := hone
      simp only [ih]
      generalize inferAll o sweeps c₁ rest g₁ = others
      obtain ⟨e | states, g₂⟩ := others <;> rfl

/-- Every new state is drawn against the given counts. -/
theorem inferAll_ok {pairs : List (Document × TopicState)} {states : List TopicState}
    (h : (inferAll o sweeps c pairs g).1 = .ok states) :
    List.Forall₂ (fun x s => ∃ g : γ, (sample o .frozen sweeps x.1 x.2 c g).1 = .ok s)
      pairs states := by
  induction pairs generalizing g states with
  | nil =>
    cases h
    exact .nil
  | cons x rest ih =>
    obtain ⟨d, s⟩ := x
    rw [inferAll] at h
    rcases hone : sample o .frozen sweeps d s c g with ⟨e | s', c₁, g₁⟩
    · rw [hone] at h
      cases h
    · rw [hone] at h
      dsimp only at h
      rcases hrest : inferAll o sweeps c rest g₁ with ⟨e | states', g₂⟩
      · rw [hrest] at h
        cases h
      · rw [hrest] at h
        cases h
        exact .cons ⟨g, congrArg Prod.fst hone⟩ (ih (congrArg Prod.fst hrest))

/-- A failure is that of a document, which a check refuses or which has a degenerate weight. -/
theorem inferAll_error {pairs : List (Document × TopicState)}
    (h : (inferAll o sweeps c pairs g).1 = .error e) :
    (∃ x ∈ pairs, ∃ cause, checkSample o sweeps x.1 x.2 c = .error cause ∧ e = .error cause) ∨
      e.IsDegenerate := by
  induction pairs generalizing g with
  | nil => cases h
  | cons x rest ih =>
    obtain ⟨d, s⟩ := x
    rw [inferAll] at h
    rcases hone : sample o .frozen sweeps d s c g with ⟨e' | s', c₁, g₁⟩
    · rw [hone] at h
      cases h
      exact (sample_error (congrArg Prod.fst hone)).imp_left fun hcause =>
        ⟨(d, s), List.mem_cons_self, hcause⟩
    · rw [hone] at h
      dsimp only at h
      rcases hrest : inferAll o sweeps c rest g₁ with ⟨e' | states', g₂⟩
      · rw [hrest] at h
        cases h
        exact (ih (congrArg Prod.fst hrest)).imp_left fun ⟨x, hx, hcause⟩ =>
          ⟨x, List.mem_cons_of_mem _ hx, hcause⟩
      · rw [hrest] at h
        cases h

/-! ## Partitions and workers -/

section
variable {b : Broadcast α} {K : Nat}

/-- A frozen sweep of a partition infers the states of its documents. -/
theorem Partition.sweep_frozen {p : Partition} (hp : p.cache.entry = none)
    (hb : b.counts.HasShape b.options.vocSize b.options.topicNum) (sweeps : Nat) (g : γ) :
    ((p.sweep b .frozen sweeps g).1.map fun () => (p.sweep b .frozen sweeps g).2.1.states) =
      (inferAll b.options sweeps b.counts p.pairs g).1 := by
  have hflat : Counts.ofFlat (α := α) b.options.vocSize b.options.topicNum b.counts.flat =
      .ok b.counts := by
    rw [← hb.1, ← hb.2]
    exact dif_pos b.counts.size_flat
  have hresampled : (p.resampled b .frozen sweeps g).1 =
      (inferAll b.options sweeps b.counts p.pairs g).1 := by
    unfold resampled
    split
    · rename_i hnil
      rw [hnil]
      rfl
    · rw [hflat]
      dsimp only
      rw [sampleAll_frozen]
  rw [sweep_eq_plainSweep hp, ← hresampled, plainSweep]
  rcases p.resampled b .frozen sweeps g with ⟨e | states, g'⟩ <;> rfl

namespace Worker

/-- The states that shards infer one after the other, each with the seed of its own generator. -/
def inferShards (b : Broadcast α) (sweeps : Nat) :
    List (Partition × UInt64) → Outcome α (List TopicState)
  | [] => .ok []
  | (p, seed) :: shards => do
    let states ← (inferAll b.options sweeps b.counts p.pairs (Xoshiro.ofSeed seed)).1
    let others ← inferShards b sweeps shards
    return states ++ others

/-- The states that partitions infer, each for itself and all against the counts of the model. -/
def infer (w : Worker) (b : Broadcast α) (sweeps : Nat) (g : γ) : Outcome α (List TopicState) :=
  match w with
  | single p => (inferAll b.options sweeps b.counts p.pairs g).1
  | sharded ps => inferShards b sweeps (ps.zip (drawWords ps.length g).1)

theorem sweepShards_frozen (hb : b.counts.HasShape b.options.vocSize b.options.topicNum)
    (sweeps : Nat) {ps : List Partition} {seeds : List UInt64}
    (hps : ∀ p ∈ ps, p.cache.entry = none) (hlen : ps.length = seeds.length) :
    ((sweepShards b .frozen sweeps ps seeds).1.map fun () =>
      (sweepShards b .frozen sweeps ps seeds).2.flatMap Partition.states) =
    inferShards b sweeps (ps.zip seeds) := by
  induction ps generalizing seeds with
  | nil => rfl
  | cons p ps ih =>
    cases seeds with
    | nil => cases hlen
    | cons seed seeds =>
      obtain ⟨hp, hps⟩ := List.forall_mem_cons.1 hps
      have hone := Partition.sweep_frozen hp hb sweeps (Xoshiro.ofSeed seed)
      have hrest := ih hps (Nat.succ.inj hlen)
      rw [List.zip_cons_cons, inferShards, ← hone, ← hrest, sweepShards]
      rcases p.sweep b .frozen sweeps (Xoshiro.ofSeed seed) with ⟨e | u, p', g'⟩
      · rfl
      · simp only [Except.map, Outcome.ok_bind]
        rcases sweepShards b .frozen sweeps ps seeds with ⟨e | u, ps'⟩ <;> rfl

/-- A frozen sweep of a worker infers the states of the documents. -/
theorem sweep_frozen {w : Worker} (hw : w.Assigned K)
    (hb : b.counts.HasShape b.options.vocSize b.options.topicNum) (sweeps : Nat) (g : γ) :
    ((w.sweep b .frozen sweeps g).1.map fun () => (w.sweep b .frozen sweeps g).2.1.states) =
      w.infer b sweeps g := by
  cases w with
  | single p =>
    have hp := Partition.sweep_frozen (hw p List.mem_cons_self).cache_empty hb sweeps g
    simpa [Worker.sweep, infer, states, partitions] using hp
  | sharded ps =>
    exact sweepShards_frozen hb sweeps (fun p hp => (hw p hp).cache_empty)
      (length_drawWords ps.length g).symm

theorem inferShards_ok {shards : List (Partition × UInt64)} {states : List TopicState}
    (h : inferShards b sweeps shards = .ok states) :
    List.Forall₂ (fun x s => ∃ g : Xoshiro,
      (sample b.options .frozen sweeps x.1 x.2 b.counts g).1 = .ok s)
      (shards.flatMap fun x => x.1.pairs) states := by
  induction shards generalizing states with
  | nil =>
    cases h
    exact .nil
  | cons shard shards ih =>
    simp only [inferShards, Outcome.bind_eq_ok_iff] at h
    obtain ⟨first, hfirst, others, hothers, hstates⟩ := h
    cases hstates
    exact List.rel_append (inferAll_ok hfirst) (ih hothers)

theorem inferShards_error {shards : List (Partition × UInt64)}
    (h : inferShards b sweeps shards = .error e) :
    (∃ x ∈ shards.flatMap fun x => x.1.pairs, ∃ cause,
      checkSample b.options sweeps x.1 x.2 b.counts = .error cause ∧ e = .error cause) ∨
      e.IsDegenerate := by
  induction shards with
  | nil => cases h
  | cons shard shards ih =>
    rw [inferShards] at h
    cases hfirst :
        (inferAll b.options sweeps b.counts shard.1.pairs (Xoshiro.ofSeed shard.2)).1 with
    | error e' =>
      rw [hfirst] at h
      cases h
      exact (inferAll_error hfirst).imp_left fun ⟨x, hx, hcause⟩ =>
        ⟨x, List.mem_append_left _ hx, hcause⟩
    | ok first =>
      rw [hfirst, Outcome.ok_bind] at h
      cases hothers : inferShards b sweeps shards with
      | error e' =>
        rw [hothers] at h
        cases h
        exact (ih hothers).imp_left fun ⟨x, hx, hcause⟩ =>
          ⟨x, List.mem_append_right _ hx, hcause⟩
      | ok others =>
        rw [hothers] at h
        cases h

omit [Arithmetic] [Scalar α] in
/-- No shard is left without a seed. -/
theorem pairs_zip (ps : List Partition) (g : γ) :
    ((ps.zip (drawWords ps.length g).1).flatMap fun x => x.1.pairs) = (sharded ps).pairs := by
  have hfst := List.map_fst_zip (Nat.le_of_eq (length_drawWords ps.length g).symm)
  rw [pairs, partitions, ← List.flatMap_map Prod.fst, hfst]

/-- Every new state is drawn against the counts of the model. -/
theorem infer_ok {w : Worker} {states : List TopicState} {g : Xoshiro}
    (h : w.infer b sweeps g = .ok states) :
    List.Forall₂ (fun x s => ∃ g : Xoshiro,
      (sample b.options .frozen sweeps x.1 x.2 b.counts g).1 = .ok s) w.pairs states := by
  cases w with
  | single p =>
    rw [pairs, partitions, List.flatMap_singleton]
    exact inferAll_ok h
  | sharded ps =>
    rw [← pairs_zip ps g]
    exact inferShards_ok h

/-- A failure is that of a document, which a check refuses or which has a degenerate weight. -/
theorem infer_error {w : Worker} (h : w.infer b sweeps g = .error e) :
    (∃ x ∈ w.pairs, ∃ cause, checkSample b.options sweeps x.1 x.2 b.counts = .error cause ∧
      e = .error cause) ∨ e.IsDegenerate := by
  cases w with
  | single p =>
    rw [pairs, partitions, List.flatMap_singleton]
    exact inferAll_error h
  | sharded ps =>
    rw [← pairs_zip ps g]
    exact inferShards_error h

end Worker

/-- New states of documents that had states which fit them. -/
theorem annotates_inferred {ds : List Document} {ss states : List TopicState}
    (hss : List.Forall₂ (fun d s => TopicState.Fits s d K) ds ss)
    (h : List.Forall₂ (fun x s => ∃ g : Xoshiro, (sample o .frozen sweeps x.1 x.2 c g).1 = .ok s)
      (ds.zip ss) states) :
    List.Forall₂ (fun out d => TopicDocument.Annotates out d K ∧ ∃ (s : TopicState) (g : Xoshiro),
      s.Fits d K ∧ (sample o .frozen sweeps d s c g).1 = .ok out.topics)
      ((ds.zip states).map fun (d, s) => TopicDocument.of d s) ds := by
  induction hss generalizing states with
  | nil => exact .nil
  | @cons d s ds ss hs hss ih =>
    obtain _ | ⟨⟨g, hone⟩, hrest⟩ := h
    exact .cons ⟨⟨rfl, rfl, sample_fits hs (Prod.ext hone rfl)⟩, s, g, hs, hone⟩ (ih hrest)

omit [Arithmetic] in
theorem predictSweeps_ne_zero {f : FitOptions α} (h : f.check = .ok ()) :
    f.predictSweeps ≠ 0 := by
  intro hzero
  unfold FitOptions.check at h
  rw [if_pos hzero] at h
  split at h <;> cases h

/-- The prediction in which the counts of the model are an argument of every resampling and nothing
that is handed on. -/
def Broadcast.infer (b : Broadcast α) (processors : Nat) (ds : List Document) (f : FitOptions α) :
    Outcome α (List TopicDocument) := do
  let (worker, g) ← Outcome.ofFault ((Worker.forCorpus ds (partitionsFor processors f.workers)).init
    b.options.topicNum (Xoshiro.ofSeed f.seed))
  let states ← worker.infer b f.predictSweeps g
  return (ds.zip states).map fun (d, s) => .of d s

namespace Broadcast

open Arithmetic (HasRoom)

variable {processors : Nat} {ds : List Document} {f : FitOptions α} {outputs : List TopicDocument}

/-- The outputs of a prediction annotate the documents, each drawn against the counts. -/
theorem infer_ok (hK : 0 < b.options.topicNum) (hroom : ∀ d ∈ ds, HasRoom d.tokenCount)
    (h : b.infer processors ds f = .ok outputs) :
    List.Forall₂ (fun out d => TopicDocument.Annotates out d b.options.topicNum ∧
      ∃ (s : TopicState) (g : Xoshiro), s.Fits d b.options.topicNum ∧
        (sample b.options .frozen f.predictSweeps d s b.counts g).1 = .ok out.topics)
      outputs ds := by
  obtain ⟨w, g, hinit, hdocs, hw⟩ := Worker.init_forCorpus hK hroom
    (partitionsFor processors f.workers) (Xoshiro.ofSeed f.seed)
  simp only [infer, hinit, Outcome.ofFault_ok, Outcome.ok_bind, Outcome.bind_eq_ok_iff] at h
  obtain ⟨states, hstates, houtputs⟩ := h
  cases houtputs
  have hsampled := Worker.infer_ok hstates
  have hfits := hw.fits
  rw [hw.pairs_eq, hdocs] at hsampled
  rw [hdocs] at hfits
  exact annotates_inferred hfits hsampled

/-- Checked documents leave a degenerate weight as the only cause of a failure. -/
theorem infer_error (hK : 0 < b.options.topicNum)
    (hb : b.counts.HasShape b.options.vocSize b.options.topicNum) (hf : f.check = .ok ())
    (hds : ∀ d ∈ ds, d.checkWords (α := α) b.options.vocSize = .ok ())
    (hroom : ∀ d ∈ ds, HasRoom d.tokenCount)
    (h : b.infer processors ds f = .error e) : e.IsDegenerate := by
  obtain ⟨w, g, hinit, hdocs, hw⟩ := Worker.init_forCorpus hK hroom
    (partitionsFor processors f.workers) (Xoshiro.ofSeed f.seed)
  simp only [infer, hinit, Outcome.ofFault_ok, Outcome.ok_bind] at h
  cases hstates : w.infer b f.predictSweeps g with
  | ok states =>
    rw [hstates] at h
    cases h
  | error e' =>
    rw [hstates] at h
    cases h
    rcases Worker.infer_error hstates with ⟨⟨d, s⟩, hx, cause, hcause, -⟩ | hweight
    · rw [hw.pairs_eq] at hx
      have hs : TopicState.Fits s d b.options.topicNum := (List.forall₂_iff_zip.1 hw.fits).2 hx
      have hd := hds d (hdocs ▸ (List.of_mem_zip hx).1)
      rw [checkSample_ok_iff.2 ⟨predictSweeps_ne_zero hf, hb, hd, hs.check⟩] at hcause
      cases hcause
    · exact hweight

end Broadcast

end

/-! ## Models -/

namespace Model

variable {σ : Type} {m : Model α} {b : Broadcast α} {processors : Nat} {ds : List Document}
  {f : FitOptions α}

/-- The models that can be come by: made from options, restored from a saved form, or left by a fit
of such a model, whether it succeeds or fails. -/
inductive Reachable : Model α → Prop where
  | ofOptions (o : Options α) : Reachable (.ofOptions o)
  | ofSaved {s : SavedModel α} {m : Model α} : Model.ofSaved s = .ok m → Reachable m
  | fit {σ : Type} {m : Model α} (processors : Nat) (ds : List Document) (f : FitOptions α)
      (notify : Event α → σ → σ) (watcher : σ) :
      Reachable m → Reachable (m.fit processors ds f notify watcher).model

/-- The counts at the start of a fit have the dimensions of the options, whatever they add up to. -/
theorem start_ready {watcher : σ} {t : Training α Xoshiro σ}
    (h : m.start processors ds f watcher = .ok t) :
    t.model.options = m.options ∧ t.model.counts.HasShape m.options.vocSize m.options.topicNum := by
  simp only [start, Outcome.bind_eq_ok_iff] at h
  obtain ⟨_, -, ⟨w, g⟩, -, tally, htally, ht⟩ := h
  cases ht
  have hr := (Worker.holds_of_tally htally).toCounts
  exact ⟨rfl, hr.vocSize_eq, hr.topicNum_eq⟩

theorem run_ready {o : Options α} {notify : Event α → σ → σ} {n i : Nat} {t : Training α γ σ}
    (h : t.model.options = o ∧ t.model.counts.HasShape o.vocSize o.topicNum) :
    (t.run f notify n i).2.model.options = o ∧
      (t.run f notify n i).2.model.counts.HasShape o.vocSize o.topicNum :=
  Training.run_keeps (P := fun b => b.options = o ∧ b.counts.HasShape o.vocSize o.topicNum)
    (fun b tally hb => by
      obtain ⟨hoptions, hshape⟩ := b.replace_keeps tally
      rw [hb.2.1, hb.2.2] at hshape
      exact ⟨hoptions.trans hb.1, hshape⟩) h

/-- The counts that a model is fitted to have the dimensions of its options, which are valid. -/
theorem Reachable.ready (h : m.Reachable) : ∀ b, m.fitted = some b →
    m.options.check = .ok () ∧ b.options = m.options ∧
      b.counts.HasShape m.options.vocSize m.options.topicNum := by
  induction h with
  | ofOptions o =>
    intro b hb
    cases hb
  | ofSaved hm =>
    intro b hb
    simp only [Model.ofSaved, Outcome.bind_eq_ok_iff] at hm
    obtain ⟨_, hcheck, counts, -, b', hb', hm⟩ := hm
    cases hm
    cases hb
    obtain ⟨hshape, rfl⟩ := Broadcast.ofCounts_ok hb'
    exact ⟨hcheck, rfl, hshape⟩
  | @fit σ m processors ds f notify watcher _ ih =>
    cases hcheck : m.checkFit ds f with
    | error e =>
      rw [fit_of_checkFit_error hcheck]
      exact ih
    | ok u =>
      intro b hb
      rw [fit_eq] at hb ⊢
      cases hstart : m.start processors ds f watcher with
      | error e =>
        rw [hstart] at hb
        exact ih b hb
      | ok t =>
        rw [hstart] at hb
        cases hb
        exact ⟨(checkFit_ok_iff.1 hcheck).1, run_ready (start_ready hstart)⟩

omit [Arithmetic] [Scalar α] in
/-- The first document that is refused is the one reported. -/
theorem checkDocuments_error {o : Options α} {before after : List Document} {d : Document}
    {e : Error α} (hbefore : ∀ d ∈ before, d.checkWords (α := α) o.vocSize = .ok ())
    (hd : d.checkWords o.vocSize = .error e) :
    checkDocuments o (before ++ d :: after) = .error e := by
  induction before with
  | nil =>
    rw [List.nil_append, checkDocuments, hd]
    rfl
  | cons d' before ih =>
    obtain ⟨hd', hbefore⟩ := List.forall_mem_cons.1 hbefore
    rw [List.cons_append, checkDocuments, hd', Outcome.ok_bind, ih hbefore]

/-- With input that passes the checks a prediction goes through the cache and the shards as if there
were none. -/
theorem predict_eq_infer (hm : m.Reachable) (hb : m.fitted = some b) (hf : f.check = .ok ())
    (hds : ∀ d ∈ ds, d.checkWords (α := α) m.options.vocSize = .ok ())
    (hroom : ∀ d ∈ ds, Arithmetic.HasRoom d.tokenCount) :
    m.predict processors ds f = b.infer processors ds f := by
  obtain ⟨ho, hoptions, hshape⟩ := hm.ready b hb
  have hK : 0 < b.options.topicNum := hoptions ▸ (check_ok_iff.1 ho).2.2.2
  rw [← hoptions] at hshape
  obtain ⟨w, g, hinit, hdocs, hw⟩ := Worker.init_forCorpus hK hroom
    (partitionsFor processors f.workers) (Xoshiro.ofSeed f.seed)
  have hfrozen := Worker.sweep_frozen hw hshape f.predictSweeps g
  obtain ⟨hdocs', hw'⟩ := hw.sweep b .frozen f.predictSweeps g
  have hbroadcast : m.broadcast = .ok b := by rw [broadcast, hb]
  simp only [predict, Broadcast.infer, hbroadcast, hf, checkDocuments_ok_iff.2 hds, hinit,
    Outcome.ofCheck_ok, Outcome.ofFault_ok, Outcome.ok_bind, ← hfrozen]
  rw [hdocs] at hdocs'
  have hresults := hw'.results_eq
  generalize w.sweep b .frozen f.predictSweeps g = swept at hdocs' hresults ⊢
  obtain ⟨e | u, w', g'⟩ := swept
  · rfl
  · dsimp only at hdocs' hresults
    rw [hdocs'] at hresults
    exact congrArg Except.ok hresults

/-- A prediction of a fitted model reports its options, or else the first document that is refused.
Otherwise each document is resampled against exactly the counts that the model is fitted to, which
no token of it or of another document moves: either this gives an output for each in order, or a
weight is degenerate. -/
theorem predict_infers (hm : m.Reachable) (hb : m.fitted = some b) (processors : Nat)
    (ds : List Document) (f : FitOptions α) :
    (∀ e, f.check = .error e → m.predict processors ds f = .error (.error e)) ∧
    (f.check = .ok () → ∀ before d after e, ds = before ++ d :: after →
      (∀ d ∈ before, d.checkWords (α := α) m.options.vocSize = .ok ()) →
      d.checkWords m.options.vocSize = .error e → m.predict processors ds f = .error (.error e)) ∧
    (f.check = .ok () → (∀ d ∈ ds, d.checkWords (α := α) m.options.vocSize = .ok ()) →
      (∀ d ∈ ds, Arithmetic.HasRoom d.tokenCount) →
      m.predict processors ds f = b.infer processors ds f ∧
      (∀ word old tc (g : Xoshiro),
        (resampleToken b.options .frozen word old tc b.counts g).2.1 = b.counts) ∧
      (∀ outputs, m.predict processors ds f = .ok outputs →
        List.Forall₂ (fun out d => TopicDocument.Annotates out d m.options.topicNum ∧
          ∃ (s : TopicState) (g : Xoshiro), s.Fits d m.options.topicNum ∧
            (sample b.options .frozen f.predictSweeps d s b.counts g).1 = .ok out.topics)
          outputs ds) ∧
      ∀ e, m.predict processors ds f = .error e → e.IsDegenerate) := by
  have hbroadcast : m.broadcast = .ok b := by rw [broadcast, hb]
  obtain ⟨ho, hoptions, hshape⟩ := hm.ready b hb
  have hK : 0 < b.options.topicNum := hoptions ▸ (check_ok_iff.1 ho).2.2.2
  refine ⟨fun e he => ?options, fun hf before d after e hds hbefore hd => ?document,
    fun hf hds hroom => ?checked⟩
  case options =>
    rw [predict, hbroadcast, he]
    rfl
  case document =>
    rw [predict, hbroadcast, hf, hds, checkDocuments_error hbefore hd]
    rfl
  case checked =>
    rw [predict_eq_infer hm hb hf hds hroom]
    rw [← hoptions] at hshape hds ⊢
    exact ⟨rfl, fun _ _ _ _ => resampleToken_frozen, fun outputs h => Broadcast.infer_ok hK hroom h,
      fun e h => Broadcast.infer_error hK hshape hf hds hroom h⟩

omit [Arithmetic] in
/-- A restored model is fitted to the counts that were saved. -/
theorem fitted_ofSaved {s : SavedModel α} (h : Model.ofSaved s = .ok m) :
    ∃ b, m.fitted = some b ∧ b.counts.flat = s.flat.toArray ∧
      b.counts.HasShape s.vocSize s.topicNum ∧ b.options = s.options ∧
      s.options.check = .ok () := by
  simp only [ofSaved, Outcome.bind_eq_ok_iff] at h
  obtain ⟨_, hcheck, counts, hcounts, b, hb, hm⟩ := h
  cases hm
  obtain ⟨hshape, rfl⟩ := Broadcast.ofCounts_ok hb
  refine ⟨_, rfl, ?_, hshape, rfl, hcheck⟩
  unfold Counts.ofFlat at hcounts
  split at hcounts
  · cases hcounts
    rfl
  · cases hcounts

end Model

end

/-! ## What is restored -/

namespace Restored

open Counts (HasRoom)

section
variable {α : Type} [Arithmetic] [Scalar α]

/-- What predictions can be asked of: a fitted model, or what a saved form is restored to. -/
inductive Reachable : Restored α → Prop where
  | fitted {m : Model α} {b : Broadcast α} : m.Reachable → m.fitted = some b → Reachable (.model m)
  | restored {s : SavedModel α} {r : Restored α} : s.restore = .ok r → Reachable r

/-- If the layout has room, this is a model with counts. -/
theorem Reachable.exists_model {r : Restored α} (h : r.Reachable)
    (hroom : HasRoom r.options.vocSize r.options.topicNum) :
    ∃ m b, r = .model m ∧ m.Reachable ∧ m.fitted = some b := by
  cases h with
  | fitted hm hb => exact ⟨_, _, rfl, hm, hb⟩
  | restored h =>
    obtain ⟨-, m, hm, rfl⟩ | ⟨hnone, -, -, rfl⟩ := SavedModel.restore_ok_iff.1 h
    · obtain ⟨b, hb, -⟩ := Model.fitted_ofSaved hm
      exact ⟨m, b, rfl, .ofSaved hm, hb⟩
    · exact absurd hroom hnone

/-- What `Model.predict_infers` says of a model holds of all that a prediction can be asked of, if
its layout has room. -/
theorem predict_from_kept_counts {r : Restored α} (hr : r.Reachable)
    (hroom : HasRoom r.options.vocSize r.options.topicNum) (processors : Nat)
    (ds : List Document) (f : FitOptions α) :
    ∃ m b, r = .model m ∧ m.fitted = some b ∧
      (∀ e, f.check = .error e → r.predict processors ds f = .error (.error e)) ∧
      (f.check = .ok () → ∀ before d after e, ds = before ++ d :: after →
        (∀ d ∈ before, d.checkWords (α := α) m.options.vocSize = .ok ()) →
        d.checkWords m.options.vocSize = .error e →
        r.predict processors ds f = .error (.error e)) ∧
      (f.check = .ok () → (∀ d ∈ ds, d.checkWords (α := α) m.options.vocSize = .ok ()) →
        (∀ d ∈ ds, Arithmetic.HasRoom d.tokenCount) →
        r.predict processors ds f = b.infer processors ds f ∧
        (∀ word old tc (g : Xoshiro),
          (resampleToken b.options .frozen word old tc b.counts g).2.1 = b.counts) ∧
        (∀ outputs, r.predict processors ds f = .ok outputs →
          List.Forall₂ (fun out d => TopicDocument.Annotates out d m.options.topicNum ∧
            ∃ (s : TopicState) (g : Xoshiro), s.Fits d m.options.topicNum ∧
              (sample b.options .frozen f.predictSweeps d s b.counts g).1 = .ok out.topics)
            outputs ds) ∧
        ∀ e, r.predict processors ds f = .error e → e.IsDegenerate) := by
  obtain ⟨m, b, rfl, hm, hb⟩ := hr.exists_model hroom
  exact ⟨m, b, rfl, hb, Model.predict_infers hm hb processors ds f⟩

end

/-- A model restored with counts that are negative and do not agree with the totals, asked by two
shards for the topics of two documents, without a pass, and for those of a document with a word that
it does not have. -/
theorem predict_from_negative_counts :
    let s : SavedModel ℝ := ⟨3, 2, 1, 1, 5, [2, -1, 0, 4, 0, 3, 9, 9]⟩
    let ds : List Document := [⟨0, [0, 2], [1, 2]⟩, ⟨1, [1], [1]⟩]
    let f : FitOptions ℝ := { FitOptions.standard with seed := 7, iters := 5, workers := 2 }
    ∃ r, ∃ b : Broadcast ℝ, s.restore = .ok r ∧ r.Reachable ∧
      HasRoom r.options.vocSize r.options.topicNum ∧ b.counts.flat = #[2, -1, 0, 4, 0, 3, 9, 9] ∧
      r.predict 1 ds f = b.infer 1 ds f ∧
      r.predict 1 ds { f with predictSweeps := 0 } =
        .error (.error (.invalidDimension .predictSweeps 0)) ∧
      r.predict 1 [⟨0, [0], [1]⟩, ⟨1, [7], [1]⟩, ⟨2, [], [1]⟩] f =
        .error (.error (.wordOutOfRange 1 7 3)) := by
  intro s ds f
  have hoptions : s.options.check = .ok () := Model.check_ok_iff.2
    ⟨isProper_iff.2 one_pos, isProper_iff.2 one_pos, by decide, by decide⟩
  have hf : f.check = .ok () := check_standard (by decide)
  have hrestored : s.restore = .ok (.model ⟨s.options,
      some ⟨s.options, ⟨3, 2, #[2, -1, 0, 4, 0, 3, 9, 9], rfl⟩, 5⟩, []⟩) := by
    rw [SavedModel.restore_of_room (by decide), Model.ofSaved, hoptions]
    rfl
  have hr := Reachable.restored hrestored
  have hroom : HasRoom 3 2 := by decide
  have hds : ∀ d ∈ ds, d.checkWords (α := ℝ) 3 = .ok () := by decide
  obtain ⟨_, b, hmodel, hb, -, -, hinfer⟩ := predict_from_kept_counts hr hroom 1 ds f
  cases hmodel
  cases hb
  obtain ⟨_, _, -, -, hbad, -⟩ :=
    predict_from_kept_counts hr hroom 1 ds { f with predictSweeps := 0 }
  obtain ⟨_, _, hmodel, -, -, hfirst, -⟩ :=
    predict_from_kept_counts hr hroom 1 [⟨0, [0], [1]⟩, ⟨1, [7], [1]⟩, ⟨2, [], [1]⟩] f
  cases hmodel
  refine ⟨_, _, hrestored, hr, hroom, rfl, (hinfer hf hds (by decide)).1, hbad _ rfl, ?_⟩
  exact hfirst hf [⟨0, [0], [1]⟩] ⟨1, [7], [1]⟩ [⟨2, [], [1]⟩] _ rfl (by decide) rfl

/-- The form of a model with as many words as can be counted and with no counts passes for one, and
the first token of a document ends a prediction outside of all counts. -/
theorem predict_without_counts :
    let s : SavedModel ℝ := ⟨18446744073709551615, 1, 1, 1, 0, []⟩
    let d : Document := ⟨0, [0], [1]⟩
    ∃ r, s.restore = .ok r ∧ r.Reachable ∧ FitOptions.standard.check (α := ℝ) = .ok () ∧
      d.checkWords (α := ℝ) s.vocSize = .ok () ∧
      r.predict 1 [d] .standard = .error (.fault .indexOutOfRange) := by
  intro s d
  have hoptions : s.options.check = .ok () := Model.check_ok_iff.2
    ⟨isProper_iff.2 one_pos, isProper_iff.2 one_pos, by decide, by decide⟩
  have hrestored : s.restore = .ok (.hollow s) :=
    SavedModel.restore_hollow (by decide) hoptions (by decide)
  have hf : FitOptions.standard.check (α := ℝ) = .ok () := check_standard (by decide)
  have hd : d.checkWords (α := ℝ) s.vocSize = .ok () := by decide +kernel
  refine ⟨_, hrestored, .restored hrestored, hf, hd, predict_hollow hf ?_ ⟨d, by simp, rfl⟩⟩
  exact Model.checkDocuments_ok_iff.2 (List.forall_mem_singleton.2 hd)

end Restored

end TopicModel
