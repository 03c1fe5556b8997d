import TopicModel.Sampler
import TopicModel.Tally

/-!
# The broadcast model

The counts that all partitions start an iteration from, with the options of the model and the
number of iterations completed. They change only by `replace`, which puts the merged tally of an
iteration in their place.
-/

namespace TopicModel

/-- The model as it is handed to the partitions. -/
structure Broadcast (α : Type) where
  options : Options α
  counts : Counts
  /-- Number of completed iterations. -/
  iteration : Nat
deriving DecidableEq

namespace Broadcast

variable {α : Type} [Scalar α]

def zeros (o : Options α) : Broadcast α := ⟨o, .zeros o.vocSize o.topicNum, 0⟩

def ofTally (o : Options α) (t : Tally) : Broadcast α := ⟨o, t.toCounts o.vocSize o.topicNum, 0⟩

/-- The model of given counts, which must have the dimensions of the options. -/
def ofCounts (o : Options α) (counts : Counts) (iteration : Nat) :
    Except (Error α) (Broadcast α) := do
  counts.checkShape o
  return ⟨o, counts, iteration⟩

/-- Replaces the counts by those of a completed iteration; a tally of another shape is refused. -/
def replace [Arithmetic] (b : Broadcast α) (t : Tally) : Except (Error α) Unit × Broadcast α :=
  let counts := t.toCounts b.options.vocSize b.options.topicNum
  if counts.sameShape b.counts then
    (.ok (), ⟨b.options, counts, Arithmetic.unsigned 64 (b.iteration + 1)⟩)
  else
    (.error (.modelShape b.options.vocSize b.options.topicNum b.options.modelLength
      counts.flat.size), b)

def tokenCount [Arithmetic] (b : Broadcast α) : Int := b.counts.tokenCount

end Broadcast

end TopicModel
