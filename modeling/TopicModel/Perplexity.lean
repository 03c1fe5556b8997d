import TopicModel.Sampler

/-!
# Perplexity

The log-likelihood of tokens under fixed counts, with the topics of a token weighted by its
document's topic counts. A `Perplexity` sums it over documents, together with the number of tokens;
`value` is the exponential of the mean surprise.

As with the tally, adding a document is given with the sum as it was left.
-/

namespace TopicModel

variable {α : Type} [Scalar α]

/-- A sum of log-likelihoods and the number of tokens it covers. -/
structure Perplexity (α : Type) where
  logLikelihood : α
  tokens : Nat
deriving DecidableEq, Repr

/-- The probability that a token of a topic is a given word, from the number of tokens of the word
with the topic and of all tokens with it. -/
def wordShare (o : Options α) (ofWord ofTopic : Int) : α :=
  (Scalar.ofInt ofWord + o.beta) / (Scalar.ofInt ofTopic + o.vocBeta)

/-- The probability of each topic in a document with these topic counts and number of tokens. -/
def topicShares (o : Options α) (tokenCount : Nat) (topicCounts : List Int) : List α :=
  topicCounts.map fun n =>
    (Scalar.ofInt n + o.alpha) / (Scalar.ofNat tokenCount + Scalar.ofNat o.topicNum * o.alpha)

/-- The probability of a word: `total` and the sum over the topics from `topic` on, whose
probabilities in the document are `shares`. A share of the word that is not positive and finite, or
that was read from a negative count, is a failure. -/
def wordProbability (o : Options α) (counts : Counts) (word : Nat) :
    (topic : Nat) → (shares : List α) → (total : α) → Outcome α α
  | _, [], total => .ok total
  | topic, share :: shares, total =>
    match counts.entry? word topic, counts.total? topic with
    | some ofWord, some ofTopic =>
      let phi := wordShare o ofWord ofTopic
      if ofWord < 0 ∨ ofTopic < 0 ∨ !Scalar.isProper phi then
        .error (.error (.degenerateWeights word topic phi))
      else wordProbability o counts word (topic + 1) shares (total + share * phi)
    | _, _ => .error (.fault .indexOutOfRange)

namespace Perplexity

/-- The sum over no token. -/
def empty : Perplexity α := ⟨Scalar.zero, 0⟩

/-- Adds the tokens of each word in turn, up to the first that fails. -/
def addEntries [Arithmetic] (o : Options α) (counts : Counts) (shares : List α) :
    List (Nat × Nat) → Perplexity α → Outcome α Unit × Perplexity α
  | [], p => (.ok (), p)
  | (word, count) :: rest, p =>
    match wordProbability o counts word 0 shares Scalar.zero with
    | .error e => (.error e, p)
    | .ok probability =>
      addEntries o counts shares rest
        ⟨p.logLikelihood + Scalar.ofNat count * Scalar.log probability,
          Arithmetic.unsigned 64 (p.tokens + count)⟩

def addDocument [Arithmetic] (p : Perplexity α) (o : Options α) (counts : Counts) (d : Document)
    (s : TopicState) : Outcome α Unit × Perplexity α :=
  let checks : Except (Error α) Unit := do
    counts.checkShape o
    d.checkWords o.vocSize
    s.check d o.topicNum
  match checks with
  | .error e => (.error (.error e), p)
  | .ok () =>
    if d.isEmpty then (.ok (), p)
    else addEntries o counts (topicShares o d.tokenCount s.counts) d.entries p

/-- Adds documents up to the first that fails. -/
def addDocuments [Arithmetic] (p : Perplexity α) (o : Options α) (counts : Counts) :
    List (Document × TopicState) → Outcome α (Perplexity α)
  | [] => .ok p
  | (d, s) :: rest =>
    match p.addDocument o counts d s with
    | (.error e, _) => .error e
    | (.ok (), p) => p.addDocuments o counts rest

def add [Arithmetic] (p q : Perplexity α) : Perplexity α :=
  ⟨p.logLikelihood + q.logLikelihood, Arithmetic.unsigned 64 (p.tokens + q.tokens)⟩

def sum [Arithmetic] (ps : List (Perplexity α)) : Perplexity α := ps.foldl add empty

/-- The exponential of the mean negative log-likelihood; undefined over no token. -/
def value (p : Perplexity α) : Except (Error α) α :=
  if p.tokens = 0 then .error .emptyCorpus
  else .ok (Scalar.exp (-p.logLikelihood / Scalar.ofNat p.tokens))

end Perplexity

end TopicModel
