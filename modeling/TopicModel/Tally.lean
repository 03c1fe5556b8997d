import TopicModel.Counts
import TopicModel.TopicState

/-!
# Tallies

A `Tally` gathers the counts of some documents, so that the counts of all documents are the merged
tallies of any division of them. A tally that has gathered nothing holds no counts and takes the
dimensions of the first document it is given.

An operation that can be refused is given with the tally as it was left.
-/

namespace TopicModel

/-- The counts gathered so far, if anything was gathered. -/
structure Tally where
  counts : Option Counts := none
deriving DecidableEq

namespace Tally

variable {α : Type}

def empty : Tally := {}

def isEmpty (t : Tally) : Bool := t.counts.isNone

def tokenCount [Arithmetic] (t : Tally) : Int := (t.counts.map Counts.tokenCount).getD 0

/-- The gathered counts; those of no token if nothing was gathered. -/
def toCounts (t : Tally) (vocSize topicNum : Nat) : Counts :=
  t.counts.getD (.zeros vocSize topicNum)

/-- What a document and its assignment must meet to be gathered. -/
def checkAssignment (d : Document) (assignment : List Nat) (vocSize topicNum : Nat) :
    Except (Error α) Unit := do
  d.checkWords vocSize
  if assignment.length ≠ d.tokenCount then
    throw (.assignmentLength d.id d.tokenCount assignment.length)
  match assignment.find? (topicNum ≤ ·) with
  | some topic => throw (.topicOutOfRange d.id topic topicNum)
  | none => return ()

/-- Gathers one token per topic of the assignment. -/
def addDocument [Arithmetic] (t : Tally) (d : Document) (assignment : List Nat)
    (vocSize topicNum : Nat) : Outcome α Unit × Tally :=
  match checkAssignment d assignment vocSize topicNum with
  | .error e => (.error (.error e), t)
  | .ok () =>
    let counts := t.toCounts vocSize topicNum
    if counts.vocSize ≠ vocSize ∨ counts.topicNum ≠ topicNum then
      let expected := (vocSize + 1) * topicNum
      (.error (.error (.modelShape vocSize topicNum expected counts.flat.size)), ⟨some counts⟩)
    else
      let (result, counts) := counts.incrementAll (d.tokens.zip assignment)
      (Outcome.ofFault result, ⟨some counts⟩)

/-- The sum of two tallies; there is none if both hold counts of different shapes. -/
def add? [Arithmetic] (t u : Tally) : Except Fault Tally :=
  match t.counts, u.counts with
  | _, none => .ok t
  | none, some d => .ok ⟨some d⟩
  | some c, some d =>
    match c.add? d with
    | some sum => .ok ⟨some sum⟩
    | none => .error .shapeMismatch

/-- Adds a tally, refusing one of another shape. -/
def merge [Arithmetic] (t u : Tally) : Except (Error α) Unit × Tally :=
  match t.add? u with
  | .ok sum => (.ok (), sum)
  | .error _ =>
    match t.counts, u.counts with
    | some c, some d => (.error (.modelShape c.vocSize c.topicNum c.flat.size d.flat.size), t)
    | _, _ => (.ok (), t)

/-- The sum of several tallies, started from the first. -/
def sum? [Arithmetic] : List Tally → Except Fault Tally
  | [] => .ok .empty
  | t :: ts => ts.foldlM add? t

end Tally

end TopicModel
