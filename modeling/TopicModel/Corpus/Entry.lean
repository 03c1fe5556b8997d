import TopicModel.Decimal.Integer
import TopicModel.Text.Blank
import TopicModel.Text.Lines

/-!
# Lines of a corpus

A corpus is written as lines of three fields: a document id, a word id and a count. A line of
blanks only says nothing. `Corpus.entries` reads all lines and stops at the first that is refused.
-/

namespace TopicModel.Corpus

/-- A word's occurrences in a document, as one line gives them. -/
structure Entry where
  document : Int
  word : Nat
  count : Nat
deriving DecidableEq, Repr

/-- Why a line is refused. -/
inductive LineFault where
  /-- The line has not three fields. -/
  | fieldCount
  | documentId (fault : Decimal.IntegerFault)
  | wordId (fault : Decimal.IntegerFault)
  | count (fault : Decimal.IntegerFault)
deriving DecidableEq, Repr

def LineFault.message : LineFault → String
  | .fieldCount => "expected `docid wordid count`"
  | .documentId fault => "doc id: " ++ fault.message
  | .wordId fault => "word id: " ++ fault.message
  | .count fault => "count: " ++ fault.message

/-- Why a corpus is refused. -/
inductive Error where
  /-- A line that is not UTF-8. -/
  | notText
  /-- A line that is no entry; lines are numbered from one, blank ones included. -/
  | line (number : Nat) (fault : LineFault)
deriving DecidableEq, Repr

def Error.message : Error → String
  | .notText => "not valid UTF-8"
  | .line number fault => s!"line {number}: " ++ fault.message

namespace Entry

/-- The entry of a line, none if it is blank. -/
def ofLine (line : List Char) : Except LineFault (Option Entry) :=
  match Text.fields line with
  | [] => .ok none
  | [document, word, count] => do
    let document ← (Decimal.parseInteger 64 document).mapError .documentId
    let word ← (Decimal.parseNatural (Decimal.maxOfBits 64) word).mapError .wordId
    let count ← (Decimal.parseNatural (Decimal.maxOfBits 32) count).mapError .count
    return some { document, word, count }
  | _ => .error .fieldCount

/-- The entry of a line by its bytes, with its number for the error. -/
def ofBytes (line : Bytes) (number : Nat) : Except Error (Option Entry) :=
  match Text.decode? line with
  | none => .error .notText
  | some text => (ofLine text.toList).mapError (.line number)

end Entry

/-- The entries of numbered lines, up to the first line that is refused. -/
def entriesOf : List (Bytes × Nat) → Except Error (List Entry)
  | [] => .ok []
  | (line, number) :: rest => do
    let entry ← Entry.ofBytes line number
    let others ← entriesOf rest
    return entry.toList ++ others

def entries (bytes : Bytes) : Except Error (List Entry) :=
  entriesOf ((Text.lines bytes).zipIdx 1)

end TopicModel.Corpus
