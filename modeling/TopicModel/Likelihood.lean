import TopicModel.Counts
import TopicModel.Scalar

/-!
# The likelihood of counts

The logarithm of the probability of all words given their topics, with the word distributions of
the topics integrated out: a normalizing term for each topic, a gamma factor for each entry and one
against it for each total.
-/

namespace TopicModel

variable {α : Type} [Scalar α]

def sumLnGamma (shift : α) (counts : List Int) : α :=
  Scalar.sum (counts.map fun n => Scalar.lnGamma (Scalar.ofInt n + shift))

/-- The log-likelihood of the words given their topics, for the concentration `beta`. -/
def Counts.logLikelihood (c : Counts) (beta : α) : α :=
  let vocSize : α := Scalar.ofNat c.vocSize
  let vocBeta := vocSize * beta
  let norm := Scalar.ofNat c.topicNum * (Scalar.lnGamma vocBeta - vocSize * Scalar.lnGamma beta)
  let flat := c.flat.toList
  let split := c.vocSize * c.topicNum
  norm + sumLnGamma beta (flat.take split) - sumLnGamma vocBeta (flat.drop split)

end TopicModel
