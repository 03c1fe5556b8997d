import TopicModel.Random.Generator
import TopicModel.Scalar

/-!
# Draws of topics

`inverseCdf` looks a number up in the running sums of a list of weights: it gives the first index
whose running sum exceeds the number. `categorical` feeds it a uniform number below the total, and
`randomTopics` draws topics with no weights at all.
-/

namespace TopicModel

variable {α : Type} [Scalar α] {γ : Type} [Generator γ]

/-- The first index from `k` on whose running sum, started at `acc`, exceeds `u`. -/
def firstAbove? (u : α) : List α → α → Nat → Option Nat
  | [], _, _ => none
  | w :: ws, acc, k =>
    let acc := acc + w
    if Scalar.lt u acc then some k else firstAbove? u ws acc (k + 1)

/-- The smallest index whose running sum of weights exceeds `u`. Where rounding has pushed `u` to
the total or past it, the last index. -/
def inverseCdf (weights : List α) (u : α) : Nat :=
  (firstAbove? u weights Scalar.zero 0).getD (weights.length - 1)

def uniform (g : γ) : α × γ :=
  let (word, g) := Generator.next g
  (Scalar.unitOfWord word, g)

/-- Draws an index in proportion to weights that sum to `total`. -/
def categorical (weights : List α) (total : α) (g : γ) : Nat × γ :=
  let (x, g) := uniform g
  (inverseCdf weights (x * total), g)

/-- Draws `n` independent topics, each as likely as the others. -/
def randomTopics (topicNum : Nat) : Nat → γ → Except Fault (List Nat × γ)
  | 0, g => .ok ([], g)
  | n + 1, g => do
    let (topic, g) ← below topicNum g
    let (topics, g) ← randomTopics topicNum n g
    return (topic :: topics, g)

end TopicModel
