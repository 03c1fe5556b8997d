import TopicModel.Counts
import TopicModel.Draw
import TopicModel.Options
import TopicModel.TopicState

/-!
# The sampler

Collapsed Gibbs sampling of one document. For each token, in order, its topic is taken out of the
counts, a new topic is drawn in proportion to `conditional`, and the new topic is put back in. The
document's own topic counts always move; the model's counts move in training only, so that the
tokens and documents after this one see the change.

A result is always given together with the counts and the generator as they were left, also when it
is a failure.
-/

namespace TopicModel

variable {α : Type} [Scalar α] {γ : Type} [Generator γ]

/-- Whether resampling moves the counts of the model. -/
inductive SampleMode where
  | train
  | frozen
deriving DecidableEq, Repr

/-- Refuses counts that do not have the dimensions of the options. -/
def Counts.checkShape (c : Counts) (o : Options α) : Except (Error α) Unit :=
  if c.vocSize ≠ o.vocSize ∨ c.topicNum ≠ o.topicNum then
    .error (.modelShape o.vocSize o.topicNum o.modelLength c.flat.size)
  else .ok ()

/-- The unnormalized probability of a topic for a token, from the numbers of other tokens with that
topic: in the document, of the word, and at all. -/
def conditional (o : Options α) (inDocument ofWord ofTopic : Int) : α :=
  (Scalar.ofInt inDocument + o.alpha) * (Scalar.ofInt ofWord + o.beta) /
    (Scalar.ofInt ofTopic + o.vocBeta)

/-- The weights of `n` topics from `topic` on, `topicCounts` starting at that topic, and the sum of
`total` and the weights. The first weight that is not positive and finite, or that was read from a
negative count, is a failure; it is the last of the weights then given. -/
def weightsFrom (o : Options α) (counts : Counts) (word : Nat) :
    (n topic : Nat) → (topicCounts : List Int) → (total : α) → List α × Outcome α α
  | 0, _, _, total => ([], .ok total)
  | n + 1, topic, topicCounts, total =>
    match topicCounts, counts.entry? word topic, counts.total? topic with
    | inDocument :: topicCounts, some ofWord, some ofTopic =>
      let weight := conditional o inDocument ofWord ofTopic
      if ofWord < 0 ∨ ofTopic < 0 ∨ !Scalar.isProper weight then
        ([weight], .error (.error (.degenerateWeights word topic weight)))
      else
        let (weights, result) :=
          weightsFrom o counts word n (topic + 1) topicCounts (total + weight)
        (weight :: weights, result)
    | _, _, _ => ([], .error (.fault .indexOutOfRange))

/-- The weights of `n` topics for a token of `word`, and their sum. -/
def topicWeights (o : Options α) (counts : Counts) (word n : Nat) (topicCounts : List Int) :
    List α × Outcome α α :=
  weightsFrom o counts word n 0 topicCounts Scalar.zero

/-- Moves the counts of the model in training, and leaves them as they are otherwise. -/
def SampleMode.move [Arithmetic] (mode : SampleMode) (counts : Counts) (word topic : Nat)
    (n : Int) : Counts :=
  match mode with
  | .train => counts.addTokens word topic n
  | .frozen => counts

/-- Whether a token of `word` can be moved in or out of `topic`: the document has a count for the
topic and, in training, the model has an entry. -/
def SampleMode.CanMove (mode : SampleMode) (topicCounts : List Int) (counts : Counts)
    (word topic : Nat) : Prop :=
  topic < topicCounts.length ∧ (mode = .train → counts.InRange word topic)

instance (mode : SampleMode) (topicCounts : List Int) (counts : Counts) (word topic : Nat) :
    Decidable (mode.CanMove topicCounts counts word topic) :=
  inferInstanceAs (Decidable (_ ∧ _))

/-- What is left of a step: its result, the counts and the generator. -/
abbrev Sampled (α γ τ : Type) := Outcome α τ × Counts × γ

/-- Draws a new topic for one token of `word` that has the topic `old`. -/
def resampleToken [Arithmetic] (o : Options α) (mode : SampleMode) (word old : Nat)
    (topicCounts : List Int) (counts : Counts) (g : γ) : Sampled α γ (Nat × List Int) :=
  if mode.CanMove topicCounts counts word old then
    let topicCounts := topicCounts.modify old fun n => Arithmetic.signed (n - 1)
    let counts := mode.move counts word old (-1)
    match topicWeights o counts word o.topicNum topicCounts with
    | (_, .error e) => (.error e, counts, g)
    | (weights, .ok total) =>
      let (new, g) := categorical weights total g
      -- in range wherever the counts have the dimensions of the options
      if mode.CanMove topicCounts counts word new then
        (.ok (new, topicCounts.modify new fun n => Arithmetic.signed (n + 1)),
          mode.move counts word new 1, g)
      else (.error (.fault .indexOutOfRange), counts, g)
  else (.error (.fault .indexOutOfRange), counts, g)

def sweepTokens [Arithmetic] (o : Options α) (mode : SampleMode) :
    (tokens topics : List Nat) → (topicCounts : List Int) → Counts → γ →
      Sampled α γ (List Nat × List Int)
  | [], topics, topicCounts, counts, g => (.ok (topics, topicCounts), counts, g)
  | _ :: _, [], _, counts, g => (.error (.fault .indexOutOfRange), counts, g)
  | word :: tokens, old :: topics, topicCounts, counts, g =>
    match resampleToken o mode word old topicCounts counts g with
    | (.error e, counts, g) => (.error e, counts, g)
    | (.ok (new, topicCounts), counts, g) =>
      match sweepTokens o mode tokens topics topicCounts counts g with
      | (.error e, counts, g) => (.error e, counts, g)
      | (.ok (news, topicCounts), counts, g) => (.ok (new :: news, topicCounts), counts, g)

def sweepDocument [Arithmetic] (o : Options α) (mode : SampleMode) (tokens : List Nat) :
    (sweeps : Nat) → TopicState → Counts → γ → Sampled α γ TopicState
  | 0, s, counts, g => (.ok s, counts, g)
  | sweeps + 1, s, counts, g =>
    match sweepTokens o mode tokens s.assignment s.counts counts g with
    | (.error e, counts, g) => (.error e, counts, g)
    | (.ok (assignment, topicCounts), counts, g) =>
      sweepDocument o mode tokens sweeps ⟨topicCounts, assignment⟩ counts g

def checkSample [Arithmetic] (o : Options α) (sweeps : Nat) (d : Document) (s : TopicState)
    (counts : Counts) : Except (Error α) Unit := do
  if sweeps = 0 then throw (.invalidDimension .sweeps 0)
  counts.checkShape o
  d.checkWords o.vocSize
  s.check d o.topicNum

/-- Resamples the topics of a document in a number of passes. -/
def sample [Arithmetic] (o : Options α) (mode : SampleMode) (sweeps : Nat) (d : Document)
    (s : TopicState) (counts : Counts) (g : γ) : Sampled α γ TopicState :=
  match checkSample o sweeps d s counts with
  | .error e => (.error (.error e), counts, g)
  | .ok () =>
    if d.isEmpty then (.ok (TopicState.empty o.topicNum), counts, g)
    else sweepDocument o mode d.tokens sweeps s counts g

end TopicModel
