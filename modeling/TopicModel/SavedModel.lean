import TopicModel.Model

/-!
# Saved models

The form in which a trained model is exchanged: its options, its number of iterations and its flat
counts. A form with valid options and as many counts as they ask for is a model.

The number of counts that is asked for is computed in 64 bits. If the dimensions ask for more than
these can count, a form passes with the few counts that remain of the number, and what is restored
from it is `Restored.hollow`: it can be saved again, and what needs no count works, but a token
finds no count to be read.
-/

namespace TopicModel

variable {α : Type} [Scalar α]

/-- A trained model in its exchange form. -/
structure SavedModel (α : Type) where
  vocSize : Nat
  topicNum : Nat
  alpha : α
  beta : α
  iterations : Nat
  /-- The rows of counts one after the other, the totals last. -/
  flat : List Int
deriving DecidableEq, Repr

def SavedModel.options (s : SavedModel α) : Options α :=
  { vocSize := s.vocSize, topicNum := s.topicNum, alpha := s.alpha, beta := s.beta }

namespace Model

def ofSaved (s : SavedModel α) : Except (Error α) (Model α) := do
  s.options.check
  let counts ← Counts.ofFlat s.vocSize s.topicNum s.flat.toArray
  let b ← Broadcast.ofCounts s.options counts s.iterations
  return { options := s.options, fitted := some b }

def save (m : Model α) : Except (Error α) (SavedModel α) := do
  let b ← m.broadcast
  return {
    vocSize := m.options.vocSize
    topicNum := m.options.topicNum
    alpha := m.options.alpha
    beta := m.options.beta
    iterations := b.iteration
    flat := b.counts.flat.toList }

end Model

/-- What a saved model is restored to. -/
inductive Restored (α : Type) where
  | model (m : Model α)
  /-- The dimensions ask for more counts than can be counted, and none of them has a place. -/
  | hollow (s : SavedModel α)

/-- Restores a saved model, of which the length of the flat form is compared with what is computed
for its dimensions. -/
def SavedModel.restore (s : SavedModel α) : Except (Error α) (Restored α) :=
  if Counts.HasRoom s.vocSize s.topicNum then (Model.ofSaved s).map .model
  else do
    s.options.check
    let expected := Counts.storage s.vocSize s.topicNum
    if s.flat.length = expected then return .hollow s
    throw (.modelShape s.vocSize s.topicNum expected s.flat.length)

namespace Restored

def save : Restored α → Except (Error α) (SavedModel α)
  | .model m => m.save
  | .hollow s => .ok s

/-- Infers the topics of documents. Without a place for any count, all is well up to the first
token. -/
def predict [Arithmetic] (r : Restored α) (processors : Nat) (documents : List Document)
    (o : FitOptions α) : Outcome α (List TopicDocument) :=
  match r with
  | .model m => m.predict processors documents o
  | .hollow s => do
    Outcome.ofCheck o.check
    Outcome.ofCheck (Model.checkDocuments s.options documents)
    if documents.all Document.isEmpty then
      return documents.map fun d => .of d (TopicState.empty s.topicNum)
    .error (.fault .indexOutOfRange)

/-- The perplexity of documents, of which the first with a token ends the scoring of a hollow model.
Those before it leave nothing to be scored. -/
def perplexity [Arithmetic] (r : Restored α) (documents : List TopicDocument) : Outcome α α :=
  match r with
  | .model m => m.perplexity documents
  | .hollow s => do
    for d in documents do
      Outcome.ofCheck (d.document.checkWords s.vocSize)
      Outcome.ofCheck (d.topics.check d.document s.topicNum)
      unless d.document.isEmpty do .error (.fault .indexOutOfRange)
    .error (.error .emptyCorpus)

end Restored

def train [Arithmetic] (documents : List Document) (o : Options α) (iters : Nat) :
    Outcome α (SavedModel α × List TopicDocument) := do
  let run : FitOptions α := { FitOptions.standard with iters }
  let fit := (Model.ofOptions o).fit 1 documents run (fun _ s => s) ()
  let outputs ← fit.result
  let saved ← Outcome.ofCheck fit.model.save
  return (saved, outputs)

def predict [Arithmetic] (documents : List Document) (s : SavedModel α) (sweeps : Nat) :
    Outcome α (List TopicDocument) := do
  let r ← Outcome.ofCheck s.restore
  r.predict 1 documents { FitOptions.standard with predictSweeps := sweeps }

/-- The perplexity of documents with their topics under a saved model. -/
def perplexity [Arithmetic] (s : SavedModel α) (documents : List TopicDocument) : Outcome α α := do
  let r ← Outcome.ofCheck s.restore
  r.perplexity documents

end TopicModel
