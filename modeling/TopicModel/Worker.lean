import TopicModel.Chunks
import TopicModel.Partition
import TopicModel.Random.Xoshiro

/-!
# Workers

A worker runs a corpus: as a single partition, or sharded into several that see nothing of each
other between two merges. A sharded sweep first draws one seed per shard, in order, so that each
shard's draws depend on its seed alone.

Shards can be worked on at the same time. Here they are visited in order, and the first that fails
stops those after it. This is one of the schedules there are (`TopicModel.Schedule`); another one
can report another failure and leave other shards unswept, and differs in nothing else.
-/

namespace TopicModel

variable {α : Type} [Scalar α] {γ : Type} [Generator γ]

/-- The partitions of a corpus. -/
inductive Worker where
  | single (partition : Partition)
  | sharded (shards : List Partition)

def drawWords : Nat → γ → List UInt64 × γ
  | 0, g => ([], g)
  | n + 1, g =>
    let (word, g) := Generator.next g
    let (words, g) := drawWords n g
    (word :: words, g)

namespace Worker

def ofDocuments (documents : List Document) : Worker := .single (.ofDocuments documents 0)

/-- A corpus in about `shards` consecutive partitions of near equal size. -/
def shard (documents : List Document) (shards : Nat) : Worker :=
  .sharded ((chunked documents shards).zipIdx.map fun (part, i) => .ofDocuments part i)

def forCorpus (documents : List Document) (partitions : Nat) : Worker :=
  if partitions = 1 then ofDocuments documents else shard documents partitions

def partitions : Worker → List Partition
  | single p => [p]
  | sharded ps => ps

def initAll (topicNum : Nat) : List Partition → γ → Except Fault (List Partition × γ)
  | [], g => .ok ([], g)
  | p :: ps, g => do
    let (p, g) ← p.init topicNum g
    let (ps, g) ← initAll topicNum ps g
    return (p :: ps, g)

def init (w : Worker) (topicNum : Nat) (g : γ) : Except Fault (Worker × γ) :=
  match w with
  | single p => do
    let (p, g) ← p.init topicNum g
    return (single p, g)
  | sharded ps => do
    let (ps, g) ← initAll topicNum ps g
    return (sharded ps, g)

def documentCount (w : Worker) : Nat := (w.partitions.map Partition.documentCount).foldr (· + ·) 0

def tokenCount (w : Worker) : Nat := (w.partitions.map Partition.tokenCount).foldr (· + ·) 0

/-- Merges tallies in order, up to the first that is refused. -/
def mergeAll [Arithmetic] : List Tally → Tally → Except (Error α) Tally
  | [], t => .ok t
  | u :: us, t =>
    match t.merge u with
    | (.error e, _) => .error e
    | (.ok (), t) => mergeAll us t

/-- The counts of the corpus: those of each partition, merged. The first partition in order that
fails is the one reported; `Tallied` leaves this open. -/
def tally [Arithmetic] (w : Worker) (o : Options α) : Outcome α Tally :=
  match w with
  | single p => p.tally o
  | sharded ps => do
    let tallies ← ps.mapM fun p => p.tally o
    Outcome.ofCheck (mergeAll tallies .empty)

/-- The score of the corpus, or the failure of the first partition in order; `Scored` leaves this
open. -/
def score [Arithmetic] (w : Worker) (b : Broadcast α) : Outcome α (Perplexity α) :=
  match w with
  | single p => p.score b
  | sharded ps => do
    let scores ← ps.mapM fun p => p.score b
    return Perplexity.sum scores

/-- Sweeps shards in order, each with a generator of its own; a failure leaves the rest unswept.
`Swept` leaves open which shards are reached. -/
def sweepShards [Arithmetic] (b : Broadcast α) (mode : SampleMode) (sweeps : Nat) :
    List Partition → List UInt64 → Outcome α Unit × List Partition
  | p :: ps, seed :: seeds =>
    match p.sweep b mode sweeps (Xoshiro.ofSeed seed) with
    | (.error e, p, _) => (.error e, p :: ps)
    | (.ok (), p, _) =>
      let (result, ps) := sweepShards b mode sweeps ps seeds
      (result, p :: ps)
  | ps, _ => (.ok (), ps)

def sweep [Arithmetic] (w : Worker) (b : Broadcast α) (mode : SampleMode) (sweeps : Nat) (g : γ) :
    Outcome α Unit × Worker × γ :=
  match w with
  | single p =>
    let (result, p, g) := p.sweep b mode sweeps g
    (result, single p, g)
  | sharded ps =>
    let (seeds, g) := drawWords ps.length g
    let (result, ps) := sweepShards b mode sweeps ps seeds
    (result, sharded ps, g)

/-- The documents with their topics, in the order of the corpus. -/
def results (w : Worker) : List TopicDocument := w.partitions.flatMap Partition.results

end Worker

end TopicModel
