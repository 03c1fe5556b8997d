import TopicModel.Json.Builder
import TopicModel.Json.Reading
import TopicModel.SavedModel

/-!
# Models as JSON

A saved model is written as an object of six members. It is read from such an object, with its
members in any order and others passed over, or from an array of the six values in their order.
-/

namespace TopicModel.SavedModel

open Json (Value)

def toJson (s : SavedModel Float) : Value :=
  .record [
    ("voc_size", .ofNat s.vocSize),
    ("topic_num", .ofNat s.topicNum),
    ("alpha", .ofFloat s.alpha),
    ("beta", .ofFloat s.beta),
    ("iter_num", .ofNat s.iterations),
    ("model", .ofInts s.flat)]

def ofValues? (vocSize topicNum alpha beta iterations flat : Value) :
    Option (SavedModel Float) := do
  return {
    vocSize := ← vocSize.natural? 64
    topicNum := ← topicNum.natural? 64
    alpha := ← alpha.double?
    beta := ← beta.double?
    iterations := ← iterations.natural? 64
    flat := ← flat.list? (Value.integer? 64) }

def ofMembers? (ms : List (Bytes × Value)) : Option (SavedModel Float) := do
  ofValues? (← Value.member? "voc_size" ms) (← Value.member? "topic_num" ms)
    (← Value.member? "alpha" ms) (← Value.member? "beta" ms)
    (← Value.member? "iter_num" ms) (← Value.member? "model" ms)

def ofJson? : Value → Option (SavedModel Float)
  | .object members => (Value.named? members).bind ofMembers?
  | .array [vocSize, topicNum, alpha, beta, iterations, flat] =>
    ofValues? vocSize topicNum alpha beta iterations flat
  | _ => none

def writtenJson (l : Json.Layout) (s : SavedModel Float) : Bytes := s.toJson.written l 0

def parseJson? (bytes : Bytes) : Option (SavedModel Float) := (Value.parse? bytes).bind ofJson?

end TopicModel.SavedModel
