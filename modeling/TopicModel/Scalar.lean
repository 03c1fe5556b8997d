/-!
# Scalars

`Scalar α` is the arithmetic in which weights, likelihoods and perplexities are computed. The
sampler and everything above it are written once over it: a run takes the doubles
(`TopicModel.Double`), a theorem about exact arithmetic takes a field. No law is assumed here, so
nothing that holds of every `Scalar` depends on rounding.
-/

namespace TopicModel

/-- The operations a topic model needs of its numbers. -/
class Scalar (α : Type) extends Add α, Sub α, Mul α, Div α, Neg α where
  /-- The scalar nearest to an integer. -/
  ofInt : Int → α
  /-- Strict comparison; false as soon as one side is not a number. -/
  lt : α → α → Bool
  /-- Whether the scalar is a number other than an infinity. -/
  isFinite : α → Bool
  abs : α → α
  exp : α → α
  log : α → α
  lnGamma : α → α
  /-- The least positive scalar of full precision, below which no relative change is measured. -/
  tiny : α

namespace Scalar

variable {α : Type} [Scalar α]

def ofNat (n : Nat) : α := ofInt n

def zero : α := ofInt 0

/-- Whether a scalar is positive and finite, as a weight and a hyperparameter must be. -/
def isProper (x : α) : Bool := lt zero x && isFinite x

/-- The left-to-right sum of a list, started from zero. -/
def sum (xs : List α) : α := xs.foldl (· + ·) zero

/-- The scalar in `[0, 1)` given by the upper 53 bits of a random word. -/
def unitOfWord (w : UInt64) : α := ofNat (w >>> 11).toNat / ofNat (1 <<< 53)

end Scalar

end TopicModel
