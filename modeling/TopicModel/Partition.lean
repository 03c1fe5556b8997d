import TopicModel.Broadcast
import TopicModel.Perplexity
import TopicModel.ScanCache

/-!
# Partitions

A partition holds some documents with their topic states and works on them alone: it draws the
initial states, resamples them against the broadcast model, and gathers their counts and their
log-likelihood. A sweep goes over the documents in order with one private copy of the counts, so
that each document sees the changes of those before it; the new states replace the old ones only
when all documents have been resampled.
-/

namespace TopicModel

variable {α : Type} [Scalar α] {γ : Type} [Generator γ]

/-- A part of the corpus with the topics of its tokens. -/
structure Partition where
  index : Nat
  documents : List Document
  /-- The states of the documents, in the same order. -/
  states : List TopicState
  cache : ScanCache := {}

namespace Partition

def ofDocuments (documents : List Document) (index : Nat) : Partition :=
  { index, documents, states := [] }

/-- The documents that have a state, with it. -/
def pairs (p : Partition) : List (Document × TopicState) := p.documents.zip p.states

def drawStates (topicNum : Nat) : List Document → γ → Except Fault (List TopicState × γ)
  | [], g => .ok ([], g)
  | d :: rest, g => do
    let (assignment, g) ← randomTopics topicNum d.tokenCount g
    match TopicState.ofAssignment? assignment topicNum with
    | none => throw .indexOutOfRange
    | some s =>
      let (states, g) ← drawStates topicNum rest g
      return (s :: states, g)

def init (p : Partition) (topicNum : Nat) (g : γ) : Except Fault (Partition × γ) := do
  let (states, g) ← drawStates topicNum p.documents g
  return ({ p with states }, g)

def documentCount (p : Partition) : Nat := p.documents.length

def tokenCount (p : Partition) : Nat := (p.documents.map Document.tokenCount).foldr (· + ·) 0

/-- Gathers documents into a tally, up to the first that is refused. -/
def addPairs [Arithmetic] (o : Options α) : List (Document × TopicState) → Tally → Outcome α Tally
  | [], t => .ok t
  | (d, s) :: rest, t =>
    match t.addDocument d s.assignment o.vocSize o.topicNum with
    | (.error e, _) => .error e
    | (.ok (), t) => addPairs o rest t

def tally [Arithmetic] (p : Partition) (o : Options α) : Outcome α Tally :=
  addPairs o p.pairs .empty

def score [Arithmetic] (p : Partition) (b : Broadcast α) : Outcome α (Perplexity α) :=
  Perplexity.empty.addDocuments b.options b.counts p.pairs

/-- Resamples documents in order, each with the counts that the one before has left in the cache. -/
def samplePairs [Arithmetic] (b : Broadcast α) (mode : SampleMode) (sweeps : Nat) (key : ScanKey) :
    List (Document × TopicState) → ScanCache → γ →
      Outcome α (List TopicState) × ScanCache × γ
  | [], cache, g => (.ok [], cache, g)
  | (d, s) :: rest, cache, g =>
    let sampled := cache.acquire key b.options.vocSize b.options.topicNum b.counts.flat
      fun counts =>
        let (result, counts, g) := sample b.options mode sweeps d s counts g
        ((result, g), counts)
    match sampled with
    | (.error e, cache) => (.error (.error e), cache, g)
    | (.ok (.error e, g), cache) => (.error e, cache, g)
    | (.ok (.ok s, g), cache) =>
      match samplePairs b mode sweeps key rest cache g with
      | (.error e, cache, g) => (.error e, cache, g)
      | (.ok states, cache, g) => (.ok (s :: states), cache, g)

/-- Resamples all documents against a model. A failure leaves the states as they were. -/
def sweep [Arithmetic] (p : Partition) (b : Broadcast α) (mode : SampleMode) (sweeps : Nat)
    (g : γ) : Outcome α Unit × Partition × γ :=
  let key : ScanKey := ⟨b.iteration, p.index⟩
  let (result, cache, g) := samplePairs b mode sweeps key p.pairs p.cache g
  let (_, cache) := cache.release key
  match result with
  | .ok states => (.ok (), { p with states, cache }, g)
  | .error e => (.error e, { p with cache }, g)

def results (p : Partition) : List TopicDocument := p.pairs.map fun (d, s) => .of d s

end Partition

end TopicModel
