import TopicModel.Decimal.Rounding

/-!
# Contiguous chunks

`chunkRanges n chunks` cuts `0, …, n - 1` into ranges of one size, the last one possibly shorter.
The size is the quotient `n / chunks` rounded up, where the quotient is that of doubles: both
numbers and their quotient are rounded to 53 bits before the next integer is taken.
-/

namespace TopicModel

open Decimal (Binary)

/-- The largest size of a chunk, and the largest number of chunks. -/
def chunkLimit : Nat := UInt64.size - 1

/-- The size of a chunk: `n / chunks` in doubles, rounded up. No chunks count as one, too many as
`chunkLimit`. -/
def chunkSize (n chunks : Nat) : Nat :=
  let items := (Binary.nearest n 1).floor
  let parts := (Binary.nearest (max (min chunks chunkLimit) 1) 1).floor
  min chunkLimit (Binary.nearest items parts).ceil

/-- The ranges `[start, stop)` of the chunks, in order; without items there is none. -/
def chunkRanges (n chunks : Nat) : List (Nat × Nat) :=
  let size := chunkSize n chunks
  let step := max size 1
  (List.range ((n + step - 1) / step)).map fun i => (i * step, min (i * step + size) n)

def splitLengths {δ : Type} : List Nat → List δ → List (List δ)
  | [], _ => []
  | n :: ns, xs => xs.take n :: splitLengths ns (xs.drop n)

/-- A list cut into at most about `chunks` pieces of near equal length. -/
def chunked {δ : Type} (xs : List δ) (chunks : Nat) : List (List δ) :=
  splitLengths ((chunkRanges xs.length chunks).map fun (start, stop) => stop - start) xs

end TopicModel
