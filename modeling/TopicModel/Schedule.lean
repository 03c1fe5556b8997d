import TopicModel.Worker

/-!
# Schedules

The partitions of a sharded worker are worked on at the same time. None of them sees another, so
that a schedule shows only where partitions fail: which of the failures is reported, and which
partitions were not reached any more. `Worker.tally`, `Worker.score` and `Worker.sweep` visit the
partitions in order and stop at the first failure. What any schedule can give is `Worker.Tallied`,
`Worker.Scored` and `Worker.Swept`.
-/

namespace TopicModel

/-- What is collected of results that are computed at the same time: all of them, each in its place,
or one of the failures. -/
inductive Collected {ε τ : Type} (results : List (Except ε τ)) : Except ε (List τ) → Prop where
  | all (xs : List τ) : results = xs.map .ok → Collected results (.ok xs)
  | failed (e : ε) : .error e ∈ results → Collected results (.error e)

namespace Worker

variable {α : Type} [Scalar α] {γ : Type} [Generator γ] [Arithmetic]

/-- The tally of a worker under some schedule. The tallies of partitions are merged in order. -/
inductive Tallied (o : Options α) : Worker → Outcome α Tally → Prop where
  | single (p : Partition) : Tallied o (single p) (p.tally o)
  | sharded {ps : List Partition} {tallies : Outcome α (List Tally)} :
      Collected (ps.map fun p => p.tally o) tallies →
      Tallied o (sharded ps) (do Outcome.ofCheck (mergeAll (← tallies) .empty))

/-- The score of a worker under some schedule. -/
inductive Scored (b : Broadcast α) : Worker → Outcome α (Perplexity α) → Prop where
  | single (p : Partition) : Scored b (single p) (p.score b)
  | sharded {ps : List Partition} {scores : Outcome α (List (Perplexity α))} :
      Collected (ps.map fun p => p.score b) scores →
      Scored b (sharded ps) (do return Perplexity.sum (← scores))

/-- Partitions of which each was swept with its seed, and left a result, or was not reached. -/
inductive SweptShards (b : Broadcast α) (mode : SampleMode) (sweeps : Nat) :
    List Partition → List UInt64 → List (Option (Outcome α Unit)) → List Partition → Prop where
  | nil : SweptShards b mode sweeps [] [] [] []
  | reached {p : Partition} {seed : UInt64} {ps ps' : List Partition} {seeds : List UInt64}
      {results : List (Option (Outcome α Unit))} : SweptShards b mode sweeps ps seeds results ps' →
      SweptShards b mode sweeps (p :: ps) (seed :: seeds)
        (some (p.sweep b mode sweeps (Xoshiro.ofSeed seed)).1 :: results)
        ((p.sweep b mode sweeps (Xoshiro.ofSeed seed)).2.1 :: ps')
  | missed {p : Partition} {seed : UInt64} {ps ps' : List Partition} {seeds : List UInt64}
      {results : List (Option (Outcome α Unit))} : SweptShards b mode sweeps ps seeds results ps' →
      SweptShards b mode sweeps (p :: ps) (seed :: seeds) (none :: results) (p :: ps')

/-- The sweep of a worker under some schedule, with the worker and the generator as they are left:
the seeds are drawn before, and partitions are missed only if one has failed. -/
inductive Swept (b : Broadcast α) (mode : SampleMode) (sweeps : Nat) :
    Worker → γ → Outcome α Unit × Worker × γ → Prop where
  | single (p : Partition) (g : γ) : Swept b mode sweeps (single p) g
      ((p.sweep b mode sweeps g).1, .single (p.sweep b mode sweeps g).2.1,
        (p.sweep b mode sweeps g).2.2)
  | succeeded {ps ps' : List Partition} {g : γ} {results : List (Option (Outcome α Unit))} :
      SweptShards b mode sweeps ps (drawWords ps.length g).1 results ps' →
      (∀ r ∈ results, r = some (.ok ())) →
      Swept b mode sweeps (sharded ps) g (.ok (), sharded ps', (drawWords ps.length g).2)
  | failed {ps ps' : List Partition} {g : γ} {results : List (Option (Outcome α Unit))}
      {e : Failure α} : SweptShards b mode sweeps ps (drawWords ps.length g).1 results ps' →
      some (.error e) ∈ results →
      Swept b mode sweeps (sharded ps) g (.error e, sharded ps', (drawWords ps.length g).2)

end Worker

end TopicModel
