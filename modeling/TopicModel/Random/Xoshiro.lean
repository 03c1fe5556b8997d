import TopicModel.Random.Generator

/-!
# The generator of a run

Xoshiro256++ on four words of state. `Xoshiro.ofSeed` fills the state from one word by eight steps
of a permuted congruential generator with 32-bit output.
-/

namespace TopicModel

/-- The state of a xoshiro256++ generator. -/
structure Xoshiro where
  s0 : UInt64
  s1 : UInt64
  s2 : UInt64
  s3 : UInt64
deriving DecidableEq, Repr

namespace Xoshiro

/-- A 64-bit word rotated to the left, by an amount between 1 and 63. -/
def rotateLeft (x k : UInt64) : UInt64 := x <<< k ||| x >>> (64 - k)

def next (x : Xoshiro) : UInt64 × Xoshiro :=
  let result := rotateLeft (x.s0 + x.s3) 23 + x.s0
  let t := x.s1 <<< 17
  let s2 := x.s2 ^^^ x.s0
  let s3 := x.s3 ^^^ x.s1
  (result, ⟨x.s0 ^^^ s3, x.s1 ^^^ s2, s2 ^^^ t, rotateLeft s3 45⟩)

instance : Generator Xoshiro := ⟨next⟩

/-- One step of the congruential generator that spreads a seed. -/
def seedStep (x : UInt64) : UInt64 := x * 6364136223846793005 + 11634580027462260723

/-- The 32 bits that a congruential state stands for, as the low half of a word. -/
def seedWord (x : UInt64) : UInt64 :=
  let word := (((x >>> 18) ^^^ x) >>> 27).toUInt32
  let amount := (x >>> 59).toUInt32
  (word >>> amount ||| word <<< ((32 - amount) % 32)).toUInt64

/-- A word of state from two steps, the low half first, and the state of the steps after it. -/
def seedPair (x : UInt64) : UInt64 × UInt64 :=
  let low := seedStep x
  let high := seedStep low
  (seedWord low ||| seedWord high <<< 32, high)

def ofSeed (seed : UInt64) : Xoshiro :=
  let (s0, x) := seedPair seed
  let (s1, x) := seedPair x
  let (s2, x) := seedPair x
  let (s3, _) := seedPair x
  ⟨s0, s1, s2, s3⟩

end Xoshiro

end TopicModel
