/-!
# The arithmetic of counts

Counts are numbers of fixed width: those of a model and of a topic state have 64 bits with a sign,
the occurrences of a word in a document 32 bits without one, and numbers of tokens and of iterations
64 bits without one. An `Arithmetic` says what becomes of a result that has more. In that of the
`machine` it wraps around to the other end of the range, and this is the arithmetic of the program.
In the `exact` one there is no range, and `open scoped Exact` makes it the one that is meant.
Theorems hold in every arithmetic. Those about results that have room ask for it, which asks nothing
of the exact one.

A program may also stop at the first result without room. Up to there the two arithmetics agree, so
what holds in both holds of it.
-/

namespace TopicModel

/-- Whether results wrap around at the ends of their range. -/
class Arithmetic where
  wraps : Bool

namespace Arithmetic

/-- The arithmetic in which results wrap around. -/
instance machine : Arithmetic := ⟨true⟩

/-- The arithmetic without a range. -/
abbrev exact : Arithmetic := ⟨false⟩

variable [Arithmetic]

/-- What is stored of a result that has a sign. -/
def signed (x : Int) : Int := if wraps then x.bmod (1 <<< 64) else x

/-- What is stored of a result that has none. -/
def unsigned (bits n : Nat) : Nat := if wraps then n % (1 <<< bits) else n

def sum (xs : List Int) : Int := xs.foldr (fun x total => signed (x + total)) 0

end Arithmetic

namespace Exact

scoped instance : Arithmetic := Arithmetic.exact

end Exact

end TopicModel
