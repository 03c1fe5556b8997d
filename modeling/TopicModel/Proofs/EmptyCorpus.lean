import Mathlib
import TopicModel.Double
import TopicModel.Proofs.Accounting
import TopicModel.Proofs.Scoring

/-!
# Corpora without tokens

Between the iterations of a run over documents without tokens the model counts nothing
(`Training.Counted.model_eq_zeros`). Its sweeps compute no weight, so that they succeed over any
scalars (`Training.Counted.advance_of_empty`). But there is no perplexity to evaluate
(`Training.Counted.perplexity_of_empty`), and an evaluation ends the run.

`Model.fit_without_tokens` is what becomes of a fit: without an evaluation it does nothing but count
its iterations, and otherwise it fails at the first evaluation.
-/

namespace TopicModel

open Arithmetic (unsigned)

/-! ## Documents -/

namespace Document

variable {α : Type} {d : Document} {V : Nat}

theorem checkWords_of_nil (h : d.words = [] ∧ d.counts = []) :
    d.checkWords (α := α) V = .ok () := by
  rw [checkWords_ok_iff, entries, h.1, h.2]
  simp

theorem tokenCount_of_nil (h : d.words = [] ∧ d.counts = []) : d.tokenCount = 0 := by
  rw [tokenCount, h.2]
  rfl

end Document

theorem TokensHaveRoom.of_tokenCount_eq_zero [Arithmetic] {ds : List Document}
    (h : ∀ d ∈ ds, d.tokenCount = 0) : TokensHaveRoom ds := by
  have hsum : (ds.map Document.tokenCount).sum = 0 := List.sum_eq_zero_iff.2 (by simpa using h)
  rw [TokensHaveRoom, hsum]
  exact Arithmetic.signed_zero

/-- The only output of a document without tokens has the empty state. -/
theorem TopicDocument.Annotates.eq_of_empty [Arithmetic] {out : TopicDocument} {d : Document}
    {K : Nat} (h : out.Annotates d K) (hd : d.tokenCount = 0) : out = .of d (.empty K) := by
  have hstate := h.fits.eq_empty hd
  obtain ⟨document, tokenCount, topics⟩ := out
  obtain rfl : document = d := h.document_eq
  rw [show tokenCount = _ from h.tokenCount_eq, show topics = _ from hstate,
    ← Document.tokenCount_eq]
  rfl

theorem outputs_of_empty [Arithmetic] {K : Nat} : ∀ {outs : List TopicDocument}
    {ds : List Document}, List.Forall₂ (fun out d => TopicDocument.Annotates out d K) outs ds →
    (∀ d ∈ ds, d.tokenCount = 0) → outs = ds.map fun d => .of d (.empty K)
  | [], [], .nil, _ => rfl
  | out :: outs, d :: ds, .cons h hs, hds => by
    obtain ⟨hd, hds⟩ := List.forall_mem_cons.1 hds
    rw [List.map_cons, h.eq_of_empty hd, outputs_of_empty hs hds]

/-! ## Sweeps -/

section
variable {α γ : Type} [Arithmetic] [Scalar α] [Generator γ] {o : Options α} {sweeps : Nat}

theorem sampleCalls_of_empty {d : Document} {s : TopicState} {c : Counts} {g : γ}
    {others : List (Nat × Nat)} (h : d.tokenCount = 0) :
    sampleCalls o sweeps d s c g others = [] := by
  have hempty : d.isEmpty = true := by simp [Document.isEmpty, h]
  unfold sampleCalls
  split
  · rfl
  · exact if_pos hempty

theorem scanCalls_of_empty : ∀ {pairs : List (Document × TopicState)} {c : Counts} {g : γ}
    {done : List (Nat × Nat)}, (∀ x ∈ pairs, x.1.tokenCount = 0) →
    scanCalls o sweeps pairs c g done = []
  | [], _, _, _, _ => rfl
  | (d, s) :: rest, c, g, done, h => by
    obtain ⟨hd, hrest⟩ := List.forall_mem_cons.1 h
    rw [scanCalls, sampleCalls_of_empty hd, List.nil_append]
    split
    · rfl
    · exact scanCalls_of_empty hrest

theorem Partition.weightCalls_of_empty {p : Partition} {b : Broadcast α} {g : γ}
    (h : ∀ d ∈ p.documents, d.tokenCount = 0) : p.weightCalls b sweeps g = [] := by
  unfold weightCalls
  split
  · rfl
  · exact scanCalls_of_empty fun x hx => h x.1 (List.of_mem_zip hx).1

/-- Documents without tokens have no weights. -/
theorem Worker.weightCalls_of_empty {w : Worker} {b : Broadcast α} {g : γ}
    (h : ∀ d ∈ w.documents, d.tokenCount = 0) : w.weightCalls b sweeps g = [] := by
  have hparts : ∀ p ∈ w.partitions, ∀ d ∈ p.documents, d.tokenCount = 0 :=
    fun p hp d hd => h d (List.mem_flatMap.2 ⟨p, hp, hd⟩)
  cases w with
  | single p => exact Partition.weightCalls_of_empty (hparts p List.mem_cons_self)
  | sharded ps =>
    rw [weightCalls, List.flatMap_eq_nil_iff]
    rintro ⟨p, seed⟩ hx
    exact Partition.weightCalls_of_empty (hparts p (List.of_mem_zip hx).1)

end

/-! ## Runs -/

namespace Training

namespace Counted

variable {α γ σ : Type} [Arithmetic] {o : Options α} {ds : List Document} {t : Training α γ σ}

theorem tokens_of_empty (h : t.Counted o ds) (hds : ∀ d ∈ ds, d.tokenCount = 0) :
    t.worker.tokens = [] := by
  obtain ⟨-, hwords⟩ := h.assigned.within (α := α) (V := o.vocSize)
    (by rw [h.documents_eq]; exact h.checked)
  rw [h.documents_eq] at hwords
  have hnone : ds.flatMap Document.tokens = [] := by
    rw [List.flatMap_eq_nil_iff]
    intro d hd
    apply List.length_eq_zero_iff.1
    rw [Document.length_tokens (h.checked d hd), hds d hd]
  rw [hnone] at hwords
  exact List.map_eq_nil_iff.1 hwords

/-- The model counts nothing. -/
theorem model_eq_zeros (h : t.Counted o ds) (hds : ∀ d ∈ ds, d.tokenCount = 0) :
    t.model = ⟨o, .zeros o.vocSize o.topicNum, t.model.iteration⟩ := by
  have htallies := h.tallies
  rw [h.tokens_of_empty hds] at htallies
  have hcounts := htallies.unique (Counts.tallies_zeros o.vocSize o.topicNum)
  have hoptions := h.options_eq
  rcases hmodel : t.model with ⟨options, counts, iteration⟩
  rw [hmodel] at hcounts hoptions
  obtain rfl : options = o := hoptions
  rw [show counts = _ from hcounts]

/-- Every document is given out with the empty state. -/
theorem results_of_empty (h : t.Counted o ds) (hds : ∀ d ∈ ds, d.tokenCount = 0) :
    t.worker.results = ds.map fun d => .of d (.empty o.topicNum) := by
  have hresults := h.assigned.results
  rw [h.documents_eq] at hresults
  exact outputs_of_empty hresults hds

variable [Scalar α]

/-- No perplexity is defined. -/
theorem perplexity_of_empty (h : t.Counted o ds) (hds : ∀ d ∈ ds, d.tokenCount = 0) :
    t.perplexity = .error (.error .emptyCorpus) := by
  have haccepts : ∀ x ∈ t.worker.pairs, Accepts t.model.options t.model.counts x := by
    rintro ⟨d, s⟩ hx
    rw [h.assigned.pairs_eq] at hx
    have hs : s.Fits d o.topicNum := (List.forall₂_iff_zip.1 h.assigned.fits).2 hx
    have hd : d ∈ ds := h.documents_eq ▸ (List.of_mem_zip hx).1
    have hshape := And.intro h.tallies.vocSize_eq h.tallies.topicNum_eq
    have hempty : d.isEmpty = true := by simp [Document.isEmpty, hds d hd]
    have hcheck := checkSample_ok_iff.2 ⟨one_ne_zero, hshape, h.checked d hd, hs.check (α := α)⟩
    rw [Accepts, Perplexity.addDocument_eq, h.options_eq, hcheck]
    dsimp only
    rw [if_pos hempty]
  rw [← Worker.pairs_scoring] at haccepts
  obtain ⟨q, hq⟩ := (Scoring.run_ok_iff _).2 haccepts
  rw [← Worker.score_eq_run] at hq
  have hzero : q.tokens = 0 := by
    rw [h.score_tokens hq, List.sum_eq_zero_iff]
    simpa using hds
  rw [Training.perplexity, hq, Outcome.ok_bind, Perplexity.value, if_pos hzero]
  rfl

variable [Generator γ]

/-- A sweep and merge succeed. -/
theorem advance_of_empty (h : t.Counted o ds) (hds : ∀ d ∈ ds, d.tokenCount = 0) :
    ∃ t', t.advance = (.ok (), t') ∧ t'.Counted o ds := by
  apply h.advance
  cases hs : (t.worker.sweep t.model .train 1 t.generator).1 with
  | ok u => rfl
  | error e =>
    have hcalls : t.worker.weightCalls t.model 1 t.generator = [] :=
      Worker.weightCalls_of_empty (by rwa [h.documents_eq])
    obtain ⟨call, hmem, -⟩ := h.explains.raised e hs
    rw [hcalls] at hmem
    cases hmem

theorem stage_of_empty (h : t.Counted o ds) (hds : ∀ d ∈ ds, d.tokenCount = 0) :
    ∀ n, (t.stage n).Counted o ds ∧ (t.stage n).advance.1 = .ok ()
  | 0 => by
    obtain ⟨t', hadvance, -⟩ := h.advance_of_empty hds
    exact ⟨h, congrArg Prod.fst hadvance⟩
  | n + 1 => by
    obtain ⟨hn, -⟩ := h.stage_of_empty hds n
    obtain ⟨t', hadvance, ht'⟩ := hn.advance_of_empty hds
    obtain ⟨t'', hadvance', -⟩ := ht'.advance_of_empty hds
    rw [Training.stage, hadvance]
    exact ⟨ht', congrArg Prod.fst hadvance'⟩

end Counted

section
variable {α γ : Type} [Arithmetic] [Scalar α] [Generator γ] {o : Options α} {f : FitOptions α}
  {ds : List Document} {t t' : Training α γ (List (Event α))} {n : Nat}

/-- A run without an evaluation succeeds and has counted its iterations. -/
theorem Counted.run_of_empty (h : t.Counted o ds) (hds : ∀ d ∈ ds, d.tokenCount = 0)
    (hfresh : t.model.iteration = 0) (hnone : ∀ i < n, ¬ Trace.Evaluates f i) :
    ∃ t', (t.completed f 0).run f record n 0 = (.ok (), t') ∧ t'.Counted o ds ∧
      t'.history = [] ∧ t'.model = ⟨o, .zeros o.vocSize o.topicNum, unsigned 64 n⟩ := by
  have hstage := h.stage_of_empty hds
  have hrun := run_unevaluated (t := t) (f := f) (l := 0) (k := n) (n := 0)
    fun i _ hi => ⟨(hstage i).2, hnone i (by omega)⟩
  rw [Nat.add_zero, Nat.zero_add] at hrun
  have hmodel := (hstage n).1.model_eq_zeros hds
  rw [iteration_stage hfresh fun i _ => (hstage i).2] at hmodel
  exact ⟨t.completed f n, hrun, (hstage n).1.congr rfl rfl, Trace.evaluations_eq_nil hnone, hmodel⟩

/-- The first evaluation of a run ends it, after the merge of its iteration. -/
theorem Counted.run_evaluated_of_empty (h : t.Counted o ds) (hds : ∀ d ∈ ds, d.tokenCount = 0)
    (hfresh : t.model.iteration = 0) (hnone : ∀ i < n, ¬ Trace.Evaluates f i)
    (heval : Trace.Evaluates f n) (l : Nat) :
    ∃ t', (t.completed f 0).run f record (n + (l + 1)) 0 = (.error (.error .emptyCorpus), t') ∧
      t'.history = [] ∧
      t'.model = ⟨o, .zeros o.vocSize o.topicNum, unsigned 64 (n + 1)⟩ := by
  have hstage := h.stage_of_empty hds
  have hrun := run_unevaluated (t := t) (f := f) (l := l + 1) (k := n) (n := 0)
    fun i _ hi => ⟨(hstage i).2, hnone i (by omega)⟩
  rw [Nat.zero_add] at hrun
  rw [hrun, Training.run]
  have hundefined := (hstage (n + 1)).1.perplexity_of_empty hds
  rcases iterate_completed f t n with ⟨e, t', hi, hfails⟩ | ⟨hone, -⟩
  · rw [hi]
    rcases iterate_error hi with ⟨herror, -⟩ | ⟨-, -, hperplexity, hmodel⟩
    · rw [(hstage n).2] at herror
      cases herror
    · rw [hundefined] at hperplexity
      cases hperplexity
      refine ⟨t', rfl, hfails.history_eq.trans (Trace.evaluations_eq_nil hnone), ?_⟩
      rw [hmodel, (hstage (n + 1)).1.model_eq_zeros hds,
        iteration_stage hfresh fun i _ => (hstage i).2]
  · rw [hone.perplexity_ok heval] at hundefined
    cases hundefined

end

end Training

/-! ## Fits -/

namespace Model

variable {α σ : Type} [Scalar α]

/-- The model fitted to `n` iterations over no token. -/
def emptied (m : Model α) (n : Nat) : Model α :=
  { m with
    fitted := some ⟨m.options, .zeros m.options.vocSize m.options.topicNum, n⟩
    history := [] }

section
variable [Arithmetic]

/-- What the recorded run leaves is what the fit leaves. -/
theorem fit_of_run {m : Model α} {processors : Nat} {ds : List Document} {f : FitOptions α}
    {t t' : Training α Xoshiro (List (Event α))} {result : Outcome α Unit}
    (hstart : m.start processors ds f [] = .ok t)
    (hrun : t.run f Training.record f.iters 0 = (result, t')) (notify : Event α → σ → σ)
    (watcher : σ) :
    (m.fit processors ds f notify watcher).result = result.map (fun _ => t'.worker.results) ∧
      (m.fit processors ds f notify watcher).model =
        { m with fitted := some t'.model, history := t'.history } := by
  rw [fit_recorded, fit_eq, hstart]
  dsimp only
  rw [hrun]
  exact ⟨rfl, rfl⟩

/-- A fit to documents without tokens. Without an evaluation in its iterations it gives every
document out with the empty state and leaves the model that counts nothing; else it fails at the
first evaluation and leaves that model as of then. -/
theorem fit_without_tokens (m : Model α) (processors : Nat) (ds : List Document) (f : FitOptions α)
    (notify : Event α → σ → σ) (watcher : σ) (ho : m.options.check = .ok ()) (hf : f.check = .ok ())
    (hds : ∀ d ∈ ds, d.words = [] ∧ d.counts = []) :
    let fit := m.fit processors ds f notify watcher
    (f.evaluateEvery = 0 ∨ f.iters < f.evaluateEvery →
      fit.result = .ok (ds.map fun d => .of d (.empty m.options.topicNum)) ∧
      fit.model = m.emptied (unsigned 64 f.iters)) ∧
    (0 < f.evaluateEvery → f.evaluateEvery ≤ f.iters →
      fit.result = .error (.error .emptyCorpus) ∧
      fit.model = m.emptied (unsigned 64 f.evaluateEvery)) := by
  have hcheck : m.checkFit ds f = .ok () :=
    checkFit_ok_iff.2 ⟨ho, hf, fun d hd => Document.checkWords_of_nil (hds d hd)⟩
  have hzero : ∀ d ∈ ds, d.tokenCount = 0 := fun d hd => Document.tokenCount_of_nil (hds d hd)
  obtain ⟨t, hstart, ht, -⟩ :=
    start_counted hcheck (.of_tokenCount_eq_zero hzero) processors ([] : List (Event α))
  obtain ⟨hiteration, -⟩ := start_fresh hstart
  have hstarted := start_completed (f := f) hstart
  constructor
  · intro hnever
    have hnone : ∀ i < f.iters, ¬ Trace.Evaluates f i := by
      rintro i hi ⟨hpos, hdvd⟩
      have hle := Nat.le_of_dvd (Nat.succ_pos i) hdvd
      omega
    obtain ⟨t', hrun, ht', hhistory, hmodel⟩ := ht.run_of_empty hzero hiteration hnone
    rw [hstarted] at hrun
    obtain ⟨hresult, hfitted⟩ := fit_of_run hstart hrun notify watcher
    rw [ht'.results_of_empty hzero] at hresult
    rw [hmodel, hhistory] at hfitted
    exact ⟨hresult, hfitted⟩
  · intro hpos hle
    have hnone : ∀ i < f.evaluateEvery - 1, ¬ Trace.Evaluates f i := by
      rintro i hi ⟨-, hdvd⟩
      have hle := Nat.le_of_dvd (Nat.succ_pos i) hdvd
      omega
    have heval : Trace.Evaluates f (f.evaluateEvery - 1) := by
      refine ⟨hpos, ?_⟩
      rw [Nat.sub_add_cancel hpos]
    obtain ⟨t', hrun, hhistory, hmodel⟩ :=
      ht.run_evaluated_of_empty hzero hiteration hnone heval (f.iters - f.evaluateEvery)
    rw [show f.evaluateEvery - 1 + (f.iters - f.evaluateEvery + 1) = f.iters by omega,
      hstarted] at hrun
    rw [Nat.sub_add_cancel hpos] at hmodel
    obtain ⟨hresult, hfitted⟩ := fit_of_run hstart hrun notify watcher
    rw [hmodel, hhistory] at hfitted
    exact ⟨hresult, hfitted⟩

end

/-- Two documents without tokens, in a shard each, without an evaluation and with one after every
third of ten iterations. -/
theorem fit_without_tokens_two_documents :
    let m : Model Float := .ofOptions ⟨3, 2, 0.1, 0.1⟩
    let ds : List Document := [⟨4, [], []⟩, ⟨5, [], []⟩]
    let f : FitOptions Float := { FitOptions.standard with seed := 7, iters := 10, workers := 2 }
    let silent := m.fit 1 ds { f with evaluateEvery := 0 } (fun _ n => n + 1) 0
    let evaluated := m.fit 1 ds { f with evaluateEvery := 3 } (fun _ n => n + 1) 0
    silent.result = .ok [⟨⟨4, [], []⟩, 0, ⟨[0, 0], []⟩⟩, ⟨⟨5, [], []⟩, 0, ⟨[0, 0], []⟩⟩] ∧
      silent.model = m.emptied 10 ∧
      evaluated.result = .error (.error .emptyCorpus) ∧ evaluated.model = m.emptied 3 := by
  intro m ds f silent evaluated
  have ho : m.options.check = .ok () := by decide +kernel
  have hds : ∀ d ∈ ds, d.words = [] ∧ d.counts = [] := by decide
  obtain ⟨hsilent, -⟩ := fit_without_tokens m 1 ds { f with evaluateEvery := 0 }
    (fun _ n => n + 1) 0 ho (by decide +kernel) hds
  obtain ⟨-, hevaluated⟩ := fit_without_tokens m 1 ds { f with evaluateEvery := 3 }
    (fun _ n => n + 1) 0 ho (by decide +kernel) hds
  obtain ⟨hresult, hmodel⟩ := hsilent (.inl rfl)
  obtain ⟨hresult', hmodel'⟩ := hevaluated (by decide) (by decide)
  exact ⟨hresult, hmodel, hresult', hmodel'⟩

/-- No document at all, with valid options: the first evaluation fails. -/
theorem fit_nothing_evaluated :
    let m : Model Float := .ofOptions ⟨3, 2, 0.1, 0.1⟩
    let f : FitOptions Float := { FitOptions.standard with iters := 10, evaluateEvery := 1 }
    m.options.check = .ok () ∧ f.check = .ok () ∧
      (m.fit 1 [] f (fun _ s => s) ()).result = .error (.error .emptyCorpus) ∧
      (m.fit 1 [] f (fun _ s => s) ()).model.fitted = some ⟨m.options, .zeros 3 2, 1⟩ := by
  decide +kernel

end Model

end TopicModel
