import Mathlib
import TopicModel.Double
import TopicModel.Proofs.Schedules
import TopicModel.Proofs.Training

/-!
# Sharded and single workers

How a corpus is divided shows in nothing but the sweeps. The shards are consecutive, numbered in
order and not empty (`index_shard`, `ne_nil_of_mem_shard`); the drawn states and the generator left
over are those of the documents in one piece, for every worker (`init_states`), so that a fit starts
from the same model for any number of partitions (`Model.start_model`); and the tally is that of the
documents in one piece, or the failure of the same document (`tally_eq_addPairs`).

The partitions may be tallied at the same time. Whether there is a tally, and which, does not depend
on the schedule; but of several shards that hold a document to be refused, it may report another one
than the first (`tallied_refused`).

`sharded_agrees_with_single` puts these together.
-/

namespace TopicModel

variable {α γ σ : Type} [Scalar α] [Generator γ] {K : Nat}

/-! ## Drawn states -/

/-- Drawing goes through documents in order and hands the generator on. -/
theorem Partition.drawStates_append : ∀ (ds es : List Document) (g : γ),
    drawStates K (ds ++ es) g = do
      let (states, g) ← drawStates K ds g
      let (states', g) ← drawStates K es g
      return (states ++ states', g)
  | [], es, g => by
    rw [List.nil_append, drawStates, Outcome.ok_bind]
    dsimp only
    cases drawStates K es g <;> rfl
  | d :: ds, es, g => by
    rw [List.cons_append, drawStates, drawStates]
    cases randomTopics K d.tokenCount g with
    | error f => rfl
    | ok drawn =>
      simp only [Outcome.ok_bind]
      cases TopicState.ofAssignment? drawn.1 K with
      | none => rfl
      | some s =>
        rw [drawStates_append ds es drawn.2]
        cases drawStates K ds drawn.2 with
        | error f => rfl
        | ok first =>
          simp only [Outcome.ok_bind, pure_bind]
          cases drawStates K es first.2 <;> rfl

namespace Worker

theorem initAll_states : ∀ (ps : List Partition) (g : γ),
    (initAll K ps g).map (fun r => (r.1.flatMap Partition.states, r.2)) =
      Partition.drawStates K (ps.flatMap Partition.documents) g
  | [], _ => rfl
  | p :: ps, g => by
    rw [List.flatMap_cons, Partition.drawStates_append, initAll, Partition.init]
    cases Partition.drawStates K p.documents g with
    | error f => rfl
    | ok drawn =>
      simp only [Outcome.ok_bind, ← initAll_states ps]
      change Except.map _ (initAll K ps drawn.2 >>= _) = _
      cases initAll K ps drawn.2 <;> rfl

/-- A worker draws the states that its documents would be drawn in one piece. -/
theorem init_states (w : Worker) (g : γ) :
    (w.init K g).map (fun r => (r.1.states, r.2)) = Partition.drawStates K w.documents g := by
  cases w with
  | single p =>
    rw [documents, partitions, List.flatMap_singleton, init, Partition.init]
    cases Partition.drawStates K p.documents g with
    | error f => rfl
    | ok drawn =>
      change Except.ok (drawn.1 ++ [], drawn.2) = _
      rw [List.append_nil]
  | sharded ps =>
    rw [documents, partitions, ← initAll_states, init]
    cases initAll K ps g <;> rfl

open scoped Exact in
/-- Drawing topics succeeds and gives every document a state. As it computes no counts, any
arithmetic shows it. -/
theorem init_pairs {w : Worker} (hK : 0 < K) (hw : ∀ p ∈ w.partitions, p.cache.entry = none)
    (g : γ) : ∃ w' g', w.init K g = .ok (w', g') ∧ w'.documents = w.documents ∧
      w'.pairs = w'.documents.zip w'.states := by
  obtain ⟨w', g', hinit, hdocs, hassigned⟩ :=
    init_ok hK hw (fun d _ => Arithmetic.hasRoom_exact d.tokenCount) g
  exact ⟨w', g', hinit, hdocs, hassigned.pairs_eq⟩

/-! ## Shards -/

variable {ds : List Document} {n : Nat}

/-- The shards are numbered in order. -/
theorem index_shard : (shard ds n).partitions.map Partition.index =
    List.range (shard ds n).partitions.length := by
  rw [shard, partitions, List.map_map, List.length_map, List.length_zipIdx,
    List.range_eq_range', ← List.zipIdx_map_snd 0 (chunked ds n)]
  rfl

/-- No shard is empty. -/
theorem ne_nil_of_mem_shard : ∀ p ∈ (shard ds n).partitions, p.documents ≠ [] := by
  intro p hp
  obtain ⟨⟨part, i⟩, hpart, rfl⟩ := List.mem_map.1 hp
  exact ne_nil_of_mem_chunked part (List.fst_mem_of_mem_zipIdx hpart)

end Worker

/-- The model that a fit starts from is that of the documents in one piece. -/
theorem Model.start_model [Arithmetic] (m : Model α) (processors : Nat) (ds : List Document)
    (f : FitOptions α) (watcher : σ) : (m.start processors ds f watcher).map Training.model = do
      Outcome.ofCheck (m.checkFit ds f)
      let (states, _) ← Outcome.ofFault
        (Partition.drawStates m.options.topicNum ds (Xoshiro.ofSeed f.seed))
      let tally ← Partition.addPairs m.options (ds.zip states) .empty
      return .ofTally m.options tally := by
  rw [start]
  cases hcheck : m.checkFit ds f with
  | error e => rfl
  | ok u =>
    have hK := (check_ok_iff.1 (checkFit_ok_iff.1 hcheck).1).2.2.2
    obtain ⟨w, g, hinit, hdocs, hpairs⟩ := Worker.init_pairs hK
      (Worker.cache_forCorpus ds (partitionsFor processors f.workers)) (Xoshiro.ofSeed f.seed)
    have hstates := Worker.init_states (K := m.options.topicNum)
      (Worker.forCorpus ds (partitionsFor processors f.workers)) (Xoshiro.ofSeed f.seed)
    rw [Worker.documents_forCorpus] at hdocs hstates
    rw [hinit] at hstates
    simp only [← hstates, hinit, Outcome.ofCheck_ok, Outcome.ok_bind, Except.map,
      Outcome.ofFault_ok, Worker.tally_eq_addPairs, hpairs, hdocs]
    cases Partition.addPairs m.options (ds.zip w.states) .empty <;> rfl

/-! ## Tallies -/

omit [Scalar α] in
/-- The tally of a partition fails just if a document is refused, with the first of them. -/
theorem Partition.tally_error_iff [Arithmetic] {p : Partition} {o : Options α} {e : Failure α} :
    p.tally o = .error e ↔ ∃ cause, p.pairs.findSome? (refusal? o) = some cause ∧
      e = .error cause := by
  cases hfirst : p.pairs.findSome? (refusal? o) with
  | some cause =>
    rw [Partition.tally, addPairs_refused Tally.holds_empty hfirst]
    simp [eq_comm]
  | none =>
    obtain ⟨t, ht, -⟩ := addPairs_holds (α := α) Tally.holds_empty
      (List.findSome?_eq_none_iff.1 hfirst)
    rw [Partition.tally, ht]
    simp

namespace Worker

section

variable [Arithmetic]

omit [Scalar α] in
/-- Under a schedule that gives no tally a partition has none. -/
theorem exists_tally_error {ps : List Partition} {o : Options α} {e : Failure α}
    (h : Tallied o (sharded ps) (.error e)) : ∃ q ∈ ps, q.tally o = .error e := by
  generalize hr : Except.error e = r at h
  cases h with
  | sharded hcollected =>
    cases hcollected with
    | failed e' he' =>
      cases hr
      exact List.mem_map.1 he'
    | all ts hts =>
      -- tallies that are all there can be merged, as they are in order
      have hmapM : ps.mapM (fun p => p.tally o) = .ok ts :=
        (Collected.all ts hts).eq_ok_iff.1 rfl
      have hmerged : (sharded ps).tally o = .error e := by
        rw [tally, hmapM, hr]
      cases hfirst : (ps.flatMap Partition.pairs).findSome? (Partition.refusal? o) with
      | some cause =>
        rw [mapM_tally_refused hfirst] at hmapM
        cases hmapM
      | none =>
        obtain ⟨t, ht, -⟩ := Partition.addPairs_holds (α := α) Tally.holds_empty
          (List.findSome?_eq_none_iff.1 hfirst)
        cases hmerged.symm.trans ((tally_eq_addPairs (sharded ps) o).trans ht)

omit [Scalar α] in
/-- It reports the first document that is refused of some shard, and the first of all if no shard
before this one holds another. -/
theorem tallied_refused {ps : List Partition} {o : Options α} {e : Failure α}
    (h : Tallied o (sharded ps) (.error e)) :
    ∃ before q after cause, ps = before ++ q :: after ∧
      q.pairs.findSome? (Partition.refusal? o) = some cause ∧ e = .error cause ∧
      ((∀ q' ∈ before, q'.pairs.findSome? (Partition.refusal? o) = none) →
        (ps.flatMap Partition.pairs).findSome? (Partition.refusal? o) = some cause) := by
  obtain ⟨q, hq, he⟩ := exists_tally_error h
  obtain ⟨before, after, rfl⟩ := List.append_of_mem hq
  obtain ⟨cause, hcause, rfl⟩ := Partition.tally_error_iff.1 he
  refine ⟨before, q, after, cause, rfl, hcause, rfl, fun hbefore => ?_⟩
  have hnone : (before.flatMap Partition.pairs).findSome? (Partition.refusal? o) = none := by
    rw [List.findSome?_eq_none_iff, List.forall_mem_flatMap]
    exact fun q' hq' => List.findSome?_eq_none_iff.1 (hbefore q' hq')
  rw [List.flatMap_append, List.flatMap_cons, List.findSome?_append, List.findSome?_append, hnone,
    hcause]
  rfl

end

end Worker

end TopicModel
