import Mathlib
import TopicModel.Proofs.Faults
import TopicModel.Proofs.ShardSweep
import TopicModel.Proofs.Sharding

/-!
# Sequences of operations

`Operation` lists what can be asked of a worker, with arguments of any content: models of any shape
and any counts, options of any dimensions, any number of passes. `Worker.run` carries operations out
one after the other. A failure leaves the worker as the operation has left it and the next one goes
on from there; only a fault would end the run.

What carries over from one operation to the next is that every partition is assigned, over the
number of topics that were drawn last (`perform_ok`). So no sequence of operations loses a document
or a state, or ends with a fault (`run_keeps_documents`).
-/

namespace TopicModel

open Arithmetic (HasRoom)

/-- What can be asked of a worker. -/
inductive Operation (α : Type) : Type 1 where
  | init {γ : Type} [Generator γ] (topicNum : Nat) (g : γ)
  | sweep {γ : Type} [Generator γ] (b : Broadcast α) (mode : SampleMode) (sweeps : Nat) (g : γ)
  /-- A sweep by several threads, which a failure may end before all shards have been swept. -/
  | sweepPlaces {γ : Type} [Generator γ] (b : Broadcast α) (mode : SampleMode) (sweeps : Nat)
      (g : γ) (places : List Nat)
  | tally (o : Options α)
  | score (b : Broadcast α)

namespace Operation

variable {α : Type}

/-- The topics that are drawn from, if any are, are at least one. -/
def Draws : Operation α → Prop
  | init topicNum _ => 0 < topicNum
  | _ => True

/-- The number of topics that the states are over after an operation. -/
def topicNum (before : Nat) : Operation α → Nat
  | init topicNum _ => topicNum
  | _ => before

end Operation

namespace Outcome

variable {α τ : Type}

/-- The fault that a computation ends with, if it does. -/
def escape : Outcome α τ → Except Fault Unit
  | .error (.fault f) => .error f
  | _ => .ok ()

theorem Faultless.escape {r : Outcome α τ} (h : Faultless r) : r.escape = .ok () := by
  obtain (e | f) | x := r
  · rfl
  · exact absurd rfl (h f)
  · rfl

theorem forM_escape : ∀ {rs : List (Outcome α τ)}, (∀ r ∈ rs, Faultless r) →
    rs.forM escape = .ok ()
  | [], _ => rfl
  | r :: rs, h => by
    obtain ⟨hr, hrs⟩ := List.forall_mem_cons.1 h
    rw [List.forM_eq_forM, List.forM_cons, hr.escape]
    exact forM_escape hrs

end Outcome

namespace Worker

/-! ## Numbers of documents and of tokens -/

theorem documentCount_eq (w : Worker) : w.documentCount = w.documents.length := by
  rw [documentCount, documents, List.length_flatMap, List.sum_eq_foldr]
  rfl

theorem tokenCount_eq (w : Worker) :
    w.tokenCount = (w.documents.map Document.tokenCount).sum := by
  rw [tokenCount, documents, List.map_flatMap, ← List.sum_eq_foldr, List.flatMap,
    List.sum_flatten, List.map_map]
  exact congrArg List.sum (List.map_congr_left fun p _ => List.sum_eq_foldr.symm)

/-! ## Operations -/

section

variable {α γ : Type} [Arithmetic] [Scalar α] [Generator γ] {K : Nat}

/-- Sweeps the shards at the given places; a single partition has none. -/
def sweepAt (w : Worker) (b : Broadcast α) (mode : SampleMode) (sweeps : Nat) (g : γ)
    (places : List Nat) : List (Outcome α Unit) × Worker :=
  match w with
  | single p => ([], single p)
  | sharded ps =>
    let (results, ps) := sweepPlaces b mode sweeps g places ps
    (results, sharded ps)

def perform (w : Worker) : Operation α → Except Fault Worker
  | @Operation.init _ _ _ topicNum g => do
    let (w, _) ← w.init topicNum g
    return w
  | @Operation.sweep _ _ _ b mode sweeps g => do
    let (result, w, _) := w.sweep b mode sweeps g
    result.escape
    return w
  | @Operation.sweepPlaces _ _ _ b mode sweeps g places => do
    let (results, w) := w.sweepAt b mode sweeps g places
    results.forM Outcome.escape
    return w
  | .tally o => do
    (w.tally o).escape
    return w
  | .score b => do
    (w.score b).escape
    return w

/-- Carries operations out one after the other. -/
def run : Worker → List (Operation α) → Except Fault Worker
  | w, [] => .ok w
  | w, op :: ops => do
    let w ← w.perform op
    run w ops

/-! ## Sweeps of some shards -/

theorem faultless_sweepPlaces (b : Broadcast α) (mode : SampleMode) (sweeps : Nat) (g : γ) :
    ∀ (places : List Nat) (ps : List Partition),
      ∀ r ∈ (sweepPlaces b mode sweeps g places ps).1, Outcome.Faultless r
  | [], _, r, hr => by cases hr
  | i :: places, ps, r, hr => by
    rw [sweepPlaces] at hr
    cases hp : ps[i]? with
    | none =>
      rw [hp] at hr
      exact faultless_sweepPlaces b mode sweeps g places ps r hr
    | some p =>
      rw [hp] at hr
      rcases List.mem_cons.1 hr with rfl | hr
      · exact p.faultless_sweep b mode sweeps (Xoshiro.ofSeed (Generator.word i g))
      · exact faultless_sweepPlaces b mode sweeps g places _ r hr

theorem sweepPlaces_assigned (b : Broadcast α) (mode : SampleMode) (sweeps : Nat) (g : γ) :
    ∀ (places : List Nat) (ps : List Partition), (∀ p ∈ ps, p.Assigned K) →
    (sweepPlaces b mode sweeps g places ps).2.map Partition.documents =
        ps.map Partition.documents ∧
      ∀ p ∈ (sweepPlaces b mode sweeps g places ps).2, p.Assigned K
  | [], _, hps => ⟨rfl, hps⟩
  | i :: places, ps, hps => by
    rw [sweepPlaces]
    cases hp : ps[i]? with
    | none => exact sweepPlaces_assigned b mode sweeps g places ps hps
    | some p =>
      have hassigned := hps p (List.mem_of_getElem? hp)
      have hdocs : (ownSweep b mode sweeps g i p).2.documents = p.documents :=
        Partition.sweep_documents hassigned.cache_empty b mode sweeps _
      have hown : (ownSweep b mode sweeps g i p).2.Assigned K := hassigned.sweep b mode sweeps _
      have hset : ∀ q ∈ ps.set i (ownSweep b mode sweeps g i p).2, q.Assigned K := by
        intro q hq
        rcases List.mem_or_eq_of_mem_set hq with hq | rfl
        · exact hps q hq
        · exact hown
      obtain ⟨hrest, hall⟩ := sweepPlaces_assigned b mode sweeps g places _ hset
      refine ⟨hrest.trans ?_, hall⟩
      obtain ⟨hi, rfl⟩ := List.getElem?_eq_some_iff.1 hp
      rw [List.map_set, hdocs, ← List.map_set, List.set_getElem_self]

/-! ## One operation -/

variable {w : Worker}

/-- An operation keeps the documents and leaves each a state that fits it. -/
theorem perform_ok (hw : w.Assigned K) {op : Operation α} (hop : op.Draws) :
    ∃ w', w.perform op = .ok w' ∧ w'.documents = w.documents ∧ w'.Assigned (op.topicNum K) := by
  cases op with
  | init topicNum g =>
    have hroom : ∀ d ∈ w.documents, HasRoom d.tokenCount :=
      ((List.forall₂_and_left _ _).1 (hw.fits.imp fun _ _ h => ⟨h.hasRoom, h⟩)).1
    obtain ⟨w', g', hinit, hdocs, hw'⟩ :=
      init_ok hop (fun p hp => (hw p hp).cache_empty) hroom g
    refine ⟨w', ?_, hdocs, hw'⟩
    rw [perform, hinit]
    rfl
  | sweep b mode sweeps g =>
    obtain ⟨hdocs, hw'⟩ := hw.sweep b mode sweeps g
    refine ⟨_, ?_, hdocs, hw'⟩
    rw [perform]
    dsimp only
    rw [(w.faultless_sweep b mode sweeps g).escape]
    rfl
  | sweepPlaces b mode sweeps g places =>
    cases w with
    | single p => exact ⟨single p, rfl, rfl, hw⟩
    | sharded ps =>
      obtain ⟨hdocs, hps⟩ := sweepPlaces_assigned b mode sweeps g places ps hw
      refine ⟨sharded (sweepPlaces b mode sweeps g places ps).2, ?_, congrArg List.flatten hdocs,
        hps⟩
      have hresults := Outcome.forM_escape (faultless_sweepPlaces b mode sweeps g places ps)
      rw [perform, sweepAt]
      dsimp only
      rw [hresults]
      rfl
  | tally o =>
    refine ⟨w, ?_, rfl, hw⟩
    rw [perform, (w.faultless_tally o).escape]
    rfl
  | score b =>
    refine ⟨w, ?_, rfl, hw⟩
    rw [perform, (w.faultless_score b).escape]
    rfl

/-! ## Runs -/

/-- Operations one after the other keep the documents and leave each a state that fits it. -/
theorem run_ok : ∀ {ops : List (Operation α)} {w : Worker} {K : Nat}, w.Assigned K →
    (∀ op ∈ ops, op.Draws) → ∃ w', w.run ops = .ok w' ∧ w'.documents = w.documents ∧
      w'.Assigned (ops.foldl Operation.topicNum K)
  | [], w, _, hw, _ => ⟨w, rfl, rfl, hw⟩
  | op :: ops, w, _, hw, hops => by
    obtain ⟨hop, hops⟩ := List.forall_mem_cons.1 hops
    obtain ⟨w₁, hperform, hdocs, hw₁⟩ := perform_ok hw hop
    obtain ⟨w₂, hrun, hdocs₂, hw₂⟩ := run_ok hw₁ hops
    refine ⟨w₂, ?_, hdocs₂.trans hdocs, hw₂⟩
    rw [run, hperform]
    exact hrun

/-- After topics have been drawn for the documents of a worker, each with room for the number of its
tokens, no sequence of operations, whether
they succeed or fail, ends with a fault, and none loses a document or a state: the documents are
those the worker was built from, each with one state that fits it over the number of topics drawn
last, in the partitions, the counts and the results. -/
theorem run_keeps_documents {ds : List Document} {w : Worker} {ops : List (Operation α)}
    (hw : w = ofDocuments ds ∨ ∃ n, w = shard ds n) (hK : 0 < K) (g : γ)
    (hroom : ∀ d ∈ ds, HasRoom d.tokenCount) (hops : ∀ op ∈ ops, op.Draws) :
    let L := ops.foldl Operation.topicNum K
    ∃ w', w.run (.init K g :: ops) = .ok w' ∧ w'.documents = ds ∧
      List.Forall₂ (fun d s => TopicState.Fits s d L) ds w'.states ∧
      (∀ p ∈ w'.partitions,
        List.Forall₂ (fun d s => TopicState.Fits s d L) p.documents p.states) ∧
      w'.documentCount = ds.length ∧ w'.tokenCount = (ds.map Document.tokenCount).sum ∧
      w'.results = (ds.zip w'.states).map fun (d, s) => TopicDocument.of d s := by
  intro L
  have hbuilt : w.documents = ds ∧ ∀ p ∈ w.partitions, p.cache.entry = none := by
    obtain rfl | ⟨n, rfl⟩ := hw
    · exact ⟨List.append_nil ds, List.forall_mem_singleton.2 rfl⟩
    · exact ⟨documents_shard, cache_shard⟩
  obtain ⟨w₁, g₁, hinit, hdocs₁, hw₁⟩ := init_ok hK hbuilt.2 (by rwa [hbuilt.1]) g
  obtain ⟨w₂, hrun, hdocs₂, hw₂⟩ := run_ok hw₁ hops
  have hdocs : w₂.documents = ds := hdocs₂.trans (hdocs₁.trans hbuilt.1)
  refine ⟨w₂, ?_, hdocs, ?_, fun p hp => (hw₂ p hp).fits, ?_, ?_, ?_⟩
  · rw [run, perform, hinit]
    exact hrun
  · exact hdocs ▸ hw₂.fits
  · rw [documentCount_eq, hdocs]
  · rw [tokenCount_eq, hdocs]
  · rw [hw₂.results_eq, hdocs]

end

/-- Three documents in two shards, one of them without counts. A sweep fails against a model that
lacks the tokens, the shards are swept again in another order and without a pass, and topics are
drawn from another number of them. -/
theorem run_keeps_documents_two_shards :
    let ds : List Document := [⟨0, [0, 2], [1, 2]⟩, ⟨1, [4], []⟩, ⟨2, [1], [1]⟩]
    let b : Broadcast Float := .zeros ⟨3, 2, 0.1, 0.1⟩
    let g : Xoshiro := .ofSeed 7
    let ops : List (Operation Float) := [.sweep b .train 1 g, .tally b.options,
      .sweepPlaces b .frozen 0 g [1, 0, 1], .init 5 g, .sweep b .frozen 3 g, .score b]
    ∃ w, (shard ds 2).run (.init 2 g :: ops) = .ok w ∧ w.documents = ds ∧
      List.Forall₂ (fun d s => TopicState.Fits s d 5) ds w.states ∧ w.documentCount = 3 ∧
      w.tokenCount = 4 := by
  intro ds b g ops
  have hops : ∀ op ∈ ops, op.Draws := by simp [ops, Operation.Draws]
  have hroom : ∀ d ∈ ds, HasRoom d.tokenCount := by decide
  obtain ⟨w, hrun, hdocs, hfits, -, hdocuments, htokens, -⟩ :=
    run_keeps_documents (.inr ⟨2, rfl⟩) (by decide : 0 < 2) g hroom hops
  exact ⟨w, hrun, hdocs, hfits, hdocuments, htokens⟩

end Worker

end TopicModel
