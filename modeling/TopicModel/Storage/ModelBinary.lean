import TopicModel.SavedModel
import TopicModel.Text.Lines

/-!
# Models as binary words

The compact form of a saved model: words of eight bytes, the least significant byte first. The
dimensions, the bits of the two concentrations, the iterations and the number of counts come before
the counts, which are in two's complement. Bytes after the last count are passed over.
-/

namespace TopicModel

def wordRange : Nat := UInt64.size

/-- A number as eight bytes, least significant first. -/
def wordBytes (n : Nat) : Bytes := (List.range 8).map fun i => UInt8.ofNat (n >>> (8 * i))

/-- The number that bytes denote, least significant first. -/
def ofWordBytes (bytes : Bytes) : Nat := bytes.foldr (fun b n => b.toNat + 256 * n) 0

def takeWord? (bytes : Bytes) : Option (Nat × Bytes) :=
  let word := bytes.take 8
  if word.length = 8 then some (ofWordBytes word, bytes.drop 8) else none

def takeWords? : Nat → Bytes → Option (List Nat)
  | 0, _ => some []
  | n + 1, bytes => do
    let (word, bytes) ← takeWord? bytes
    let words ← takeWords? n bytes
    return word :: words

/-- An integer as a word in two's complement. -/
def wordOfInt (i : Int) : Nat := (i % wordRange).toNat

/-- The integer of a word in two's complement. -/
def intOfWord (n : Nat) : Int := (n : Int).bmod wordRange

namespace SavedModel

def words (s : SavedModel Float) : List Nat :=
  [s.vocSize, s.topicNum, s.alpha.toBits.toNat, s.beta.toBits.toNat, s.iterations,
    s.flat.length] ++ s.flat.map wordOfInt

def writtenBinary (s : SavedModel Float) : Bytes := s.words.flatMap wordBytes

/-- The model of binary words, none if there are too few of them. -/
def parseBinary? (bytes : Bytes) : Option (SavedModel Float) := do
  let (vocSize, bytes) ← takeWord? bytes
  let (topicNum, bytes) ← takeWord? bytes
  let (alpha, bytes) ← takeWord? bytes
  let (beta, bytes) ← takeWord? bytes
  let (iterations, bytes) ← takeWord? bytes
  let (length, bytes) ← takeWord? bytes
  let flat ← takeWords? length bytes
  return {
    vocSize, topicNum, iterations
    alpha := Float.ofBits (UInt64.ofNat alpha)
    beta := Float.ofBits (UInt64.ofNat beta)
    flat := flat.map intOfWord }

end SavedModel

end TopicModel
