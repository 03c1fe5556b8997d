import TopicModel.Arithmetic
import TopicModel.Error

/-!
# Counts

`Counts` holds how many tokens of each word have each topic, and how many tokens each topic has. It
is one flat array of `vocSize + 1` rows of `topicNum` entries, word after word and the totals last,
which is also how a model is stored and exchanged. Entries may be negative or disagree with the
totals, since counts may come from outside; `isConsistent` compares the totals with the columns.

Every access is checked: an entry outside the layout is `none`.

A layout can have more entries than 64 bits can count. The number that is then computed for it, its
`storage`, is that of a far smaller array, in which its entries have no place. Counts are those of a
layout that has room.
-/

namespace TopicModel

/-- Word-topic counts with a last row of totals. -/
structure Counts where
  vocSize : Nat
  topicNum : Nat
  /-- The rows one after the other. -/
  flat : Array Int
  size_flat : flat.size = (vocSize + 1) * topicNum
deriving DecidableEq

namespace Counts

/-- The number of entries of a layout as it is computed, in 64 bits. -/
def storage (vocSize topicNum : Nat) : Nat := (vocSize + 1) * topicNum % (1 <<< 64)

/-- The entries of a layout can be counted in 64 bits. -/
def HasRoom (vocSize topicNum : Nat) : Prop := (vocSize + 1) * topicNum < 1 <<< 64

instance (vocSize topicNum : Nat) : Decidable (HasRoom vocSize topicNum) :=
  inferInstanceAs (Decidable (_ < _))

/-- The counts of no token. -/
def zeros (vocSize topicNum : Nat) : Counts where
  vocSize := vocSize
  topicNum := topicNum
  flat := Array.replicate ((vocSize + 1) * topicNum) 0
  size_flat := Array.size_replicate

/-- Counts from their flat form, which must have one entry per word and topic and the totals. -/
def ofFlat {α : Type} (vocSize topicNum : Nat) (flat : Array Int) : Except (Error α) Counts :=
  if h : flat.size = (vocSize + 1) * topicNum then .ok ⟨vocSize, topicNum, flat, h⟩
  else .error (.modelShape vocSize topicNum ((vocSize + 1) * topicNum) flat.size)

/-- The words and topics of the layout; the word `vocSize` stands for the totals. -/
def InRange (c : Counts) (word topic : Nat) : Prop := word ≤ c.vocSize ∧ topic < c.topicNum

instance (c : Counts) (word topic : Nat) : Decidable (c.InRange word topic) :=
  inferInstanceAs (Decidable (_ ∧ _))

def index (c : Counts) (word topic : Nat) : Nat := word * c.topicNum + topic

/-- The number of tokens of a word with a topic, or the total of the topic for the last row. -/
def entry? (c : Counts) (word topic : Nat) : Option Int :=
  if c.InRange word topic then c.flat[c.index word topic]? else none

def total? (c : Counts) (topic : Nat) : Option Int := c.entry? c.vocSize topic

def row? (c : Counts) (word : Nat) : Option (List Int) :=
  if word ≤ c.vocSize then
    some (c.flat.extract (word * c.topicNum) ((word + 1) * c.topicNum)).toList
  else none

def totals (c : Counts) : List Int :=
  (c.flat.extract (c.vocSize * c.topicNum) ((c.vocSize + 1) * c.topicNum)).toList

def column? (c : Counts) (topic : Nat) : Option (List Int) :=
  if topic < c.topicNum then (List.range c.vocSize).mapM fun word => c.entry? word topic
  else none

def tokenCount [Arithmetic] (c : Counts) : Int := Arithmetic.sum c.totals

/-- Whether the total of every topic is the sum of its counts. -/
def isConsistent [Arithmetic] (c : Counts) : Bool :=
  (List.range c.topicNum).all fun topic =>
    (c.column? topic).map Arithmetic.sum == c.total? topic

def modifyFlat (c : Counts) (i : Nat) (f : Int → Int) : Counts where
  vocSize := c.vocSize
  topicNum := c.topicNum
  flat := c.flat.modify i f
  size_flat := by rw [Array.size_modify, c.size_flat]

/-- Overwrites one entry, and nothing else. -/
def set (c : Counts) (word topic : Nat) (value : Int) : Counts :=
  if c.InRange word topic then c.modifyFlat (c.index word topic) fun _ => value else c

/-- Adds a number of tokens of a word to a topic, in the entry and in the total. -/
def addTokens [Arithmetic] (c : Counts) (word topic : Nat) (n : Int) : Counts :=
  if c.InRange word topic then
    -- both places are known before the first changes, so that the array is changed in place
    let entry := c.index word topic
    let total := c.index c.vocSize topic
    (c.modifyFlat entry fun x => Arithmetic.signed (x + n)).modifyFlat total fun x =>
      Arithmetic.signed (x + n)
  else c

def increment [Arithmetic] (c : Counts) (word topic : Nat) : Counts := c.addTokens word topic 1

def decrement [Arithmetic] (c : Counts) (word topic : Nat) : Counts := c.addTokens word topic (-1)

/-- Adds one token for each pair of a word and its topic, up to the first that has no entry. -/
def incrementAll [Arithmetic] (c : Counts) : List (Nat × Nat) → Except Fault Unit × Counts
  | [] => (.ok (), c)
  | (word, topic) :: rest =>
    if c.InRange word topic then (c.increment word topic).incrementAll rest
    else (.error .indexOutOfRange, c)

def sameShape (c d : Counts) : Bool := c.vocSize == d.vocSize && c.topicNum == d.topicNum

def add? [Arithmetic] (c d : Counts) : Option Counts :=
  if h : c.vocSize = d.vocSize ∧ c.topicNum = d.topicNum then
    some
      { vocSize := c.vocSize
        topicNum := c.topicNum
        flat := c.flat.zipWith (fun x y => Arithmetic.signed (x + y)) d.flat
        size_flat := by rw [Array.size_zipWith, c.size_flat, d.size_flat, h.1, h.2, Nat.min_self] }
  else none

end Counts

end TopicModel
