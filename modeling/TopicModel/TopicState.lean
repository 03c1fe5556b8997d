import TopicModel.Arithmetic
import TopicModel.BinCount
import TopicModel.Document

/-!
# Topic states

The topic state of a document gives every token a topic, in the order of `Document.tokens`, and
counts the tokens of each topic. The two can disagree, since a state may come from outside:
`TopicState.check` compares their sizes and sums and looks at the range of the topics.
-/

namespace TopicModel

/-- The topics of a document's tokens. -/
structure TopicState where
  counts : List Int
  assignment : List Nat
deriving DecidableEq, Repr

namespace TopicState

/-- The state of an assignment, its topics counted; a topic outside the range has no count. -/
def ofAssignment? (assignment : List Nat) (topicNum : Nat) : Option TopicState :=
  (binCounts? topicNum assignment).map fun bins => ⟨bins.map Int.ofNat, assignment⟩

def empty (topicNum : Nat) : TopicState := ⟨List.replicate topicNum 0, []⟩

/-- Checks a state against its document and the number of topics: one count per topic, one topic
per token, counts that are not negative and sum to the number of tokens, topics in range. -/
def check [Arithmetic] {α : Type} (s : TopicState) (d : Document) (topicNum : Nat) :
    Except (Error α) Unit :=
  let total : Int := Arithmetic.sum s.counts
  if s.counts.length ≠ topicNum then
    .error (.topicCountLength d.id topicNum s.counts.length)
  else if s.assignment.length ≠ d.tokenCount then
    .error (.assignmentLength d.id d.tokenCount s.assignment.length)
  else if total ≠ Arithmetic.signed d.tokenCount ∨ s.counts.any (· < 0) then
    .error (.topicCountSum d.id d.tokenCount total)
  else match s.assignment.find? (topicNum ≤ ·) with
    | some topic => .error (.topicOutOfRange d.id topic topicNum)
    | none => .ok ()

end TopicState

/-- A document with the topics of its tokens, as training and prediction give it out. -/
structure TopicDocument where
  document : Document
  /-- The announced number of tokens, kept as it was read. -/
  tokenCount : Nat
  topics : TopicState
deriving DecidableEq, Repr

namespace TopicDocument

def of (document : Document) (topics : TopicState) : TopicDocument :=
  ⟨document, document.tokenCount, topics⟩

/-- The index of the first largest entry, zero if there is none above zero. -/
def firstLargest (bins : List Nat) : Nat :=
  (bins.zipIdx.foldl (fun best entry => if best.1 < entry.1 then entry else best) (0, 0)).2

/-- Each word with the topic that most of its tokens have, the lowest of several. The tokens of a
word are the stretch of the assignment that its count covers. -/
def wordTopicsOf (topicNum : Nat) : List (Nat × Nat) → List Nat → Option (List (Nat × Nat))
  | [], _ => some []
  | (word, count) :: rest, assignment => do
    let own := assignment.take count
    guard (own.length = count)
    let bins ← binCounts? topicNum own
    let others ← wordTopicsOf topicNum rest (assignment.drop count)
    return (word, firstLargest bins) :: others

/-- For every word of the document the topic of most of its tokens, lowest first among equals. -/
def wordTopics [Arithmetic] {α : Type} (d : TopicDocument) : Outcome α (List (Nat × Nat)) := do
  let topicNum := d.topics.counts.length
  Outcome.ofCheck (d.topics.check d.document topicNum)
  Outcome.ofOption (wordTopicsOf topicNum d.document.entries d.topics.assignment)

end TopicDocument

end TopicModel
