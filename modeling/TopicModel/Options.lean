import TopicModel.Counts
import TopicModel.Scalar

/-!
# Options

`Options` fixes a model: its dimensions and its two concentrations. `FitOptions` steers one run.
Each has a check that names the first value out of range.
-/

namespace TopicModel

variable {α : Type} [Scalar α]

/-- The dimensions and concentrations of a topic model. -/
structure Options (α : Type) where
  /-- Number of words; word ids lie below it. -/
  vocSize : Nat
  topicNum : Nat
  /-- Concentration of a document's topics. -/
  alpha : α
  /-- Concentration of a topic's words. -/
  beta : α
deriving DecidableEq, Repr

namespace Options

/-- Symmetric concentrations by rule of thumb: fifty shared by the topics, a hundredth a word. -/
def symmetric (vocSize topicNum : Nat) : Options α where
  vocSize := vocSize
  topicNum := topicNum
  alpha := Scalar.ofNat 50 / Scalar.ofNat (max topicNum 1)
  beta := Scalar.ofNat 1 / Scalar.ofNat 100

/-- Refuses concentrations that are not positive and finite, and dimensions that are zero. -/
def check (o : Options α) : Except (Error α) Unit :=
  if !Scalar.isProper o.alpha then .error (.invalidHyperParameter .alpha o.alpha)
  else if !Scalar.isProper o.beta then .error (.invalidHyperParameter .beta o.beta)
  else if o.vocSize = 0 then .error (.invalidDimension .vocSize 0)
  else if o.topicNum = 0 then .error (.invalidDimension .topicNum 0)
  else .ok ()

def vocBeta (o : Options α) : α := Scalar.ofNat o.vocSize * o.beta

/-- The number of entries of a model: one row a word and a row of totals. -/
def modelLength (o : Options α) : Nat := Counts.storage o.vocSize o.topicNum

end Options

/-- The options of one run of training or prediction. -/
structure FitOptions (α : Type) where
  seed : UInt64
  iters : Nat
  /-- Number of partitions; none or one is a single one, a negative number one per processor. -/
  workers : Int
  predictSweeps : Nat
  /-- Iterations between two evaluations, zero for none. -/
  evaluateEvery : Nat
  /-- Relative change of perplexity below which training stops, zero for never. -/
  perplexityTol : α

namespace FitOptions

def standard : FitOptions α where
  seed := 42
  iters := 100
  workers := 1
  predictSweeps := 20
  evaluateEvery := 0
  perplexityTol := Scalar.zero

/-- Refuses runs without iterations or passes, and tolerances that are negative or not finite. -/
def check (o : FitOptions α) : Except (Error α) Unit :=
  if o.iters = 0 then .error (.invalidDimension .iters 0)
  else if o.predictSweeps = 0 then .error (.invalidDimension .predictSweeps 0)
  else if Scalar.lt o.perplexityTol Scalar.zero || !Scalar.isFinite o.perplexityTol then
    .error (.invalidHyperParameter .perplexityTol o.perplexityTol)
  else .ok ()

end FitOptions

end TopicModel
