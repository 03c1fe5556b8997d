import TopicModel.Json.Builder
import TopicModel.Json.Reading
import TopicModel.Storage.FormatError
import TopicModel.Text.Blank
import TopicModel.TopicState

/-!
# Documents with topics as lines

A document with its topics is written as one JSON object on a line of its own. Reading drops blank
lines and takes the members in any order, each of the six exactly once; other members are passed
over, but must be sound: not nested too deep, with numbers in range and strings that are texts.
-/

namespace TopicModel

open Json (Value)

namespace TopicDocument

def maxDepth : Nat := 127

/-- A document with its topics as an object, the token count between the bag and the topics. -/
def toJson (d : TopicDocument) : Value :=
  .record [
    ("doc_id", .ofInt d.document.id),
    ("words", .ofNats d.document.words),
    ("counts", .ofNats d.document.counts),
    ("word_count", .ofNat d.tokenCount),
    ("topic_count", .ofInts d.topics.counts),
    ("topic_assignment", .ofNats d.topics.assignment)]

def ofMembers? (ms : List (Bytes × Value)) : Option TopicDocument := do
  let id ← (Value.member? "doc_id" ms).bind (Value.integer? 64)
  let words ← (Value.member? "words" ms).bind (Value.list? (Value.natural? 64))
  let counts ← (Value.member? "counts" ms).bind (Value.list? (Value.natural? 32))
  let tokenCount ← (Value.member? "word_count" ms).bind (Value.natural? 64)
  let topicCounts ← (Value.member? "topic_count" ms).bind (Value.list? (Value.integer? 64))
  let assignment ← (Value.member? "topic_assignment" ms).bind (Value.list? (Value.natural? 64))
  return ⟨⟨id, words, counts⟩, tokenCount, ⟨topicCounts, assignment⟩⟩

def ofJson? (v : Value) : Option TopicDocument :=
  match v with
  | .object members =>
    if v.isStrict maxDepth then (Value.named? members).bind ofMembers? else none
  | _ => none

/-- A document with its topics as bytes, without the end of the line. -/
def written (d : TopicDocument) : Bytes := d.toJson.written .compact 0

def parse? (bytes : Bytes) : Option TopicDocument := (Value.parse? bytes).bind ofJson?

/-- The document on a line, none if it is blank. -/
def ofLine (line : Bytes) : Except FormatError (Option TopicDocument) :=
  match Text.decode? line with
  | none => .error .notText
  | some text =>
    if text.toList.all Text.isBlank then .ok none
    else match parse? line with
      | some d => .ok (some d)
      | none => .error .json

/-- The documents on lines, up to the first line that is refused. -/
def ofLines : List Bytes → Except FormatError (List TopicDocument)
  | [] => .ok []
  | line :: rest => do
    let d ← ofLine line
    let others ← ofLines rest
    return d.toList ++ others

end TopicDocument

def writeDocuments (ds : List TopicDocument) : Bytes :=
  ds.flatMap fun d => d.written ++ [Text.lineFeed]

def readDocuments (bytes : Bytes) : Except FormatError (List TopicDocument) :=
  TopicDocument.ofLines (Text.lines bytes)

end TopicModel
