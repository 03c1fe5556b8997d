/-!
# Unreadable content

The reasons for which the content of a file of models or documents is refused.
-/

namespace TopicModel

/-- Why the content of a file is refused. -/
inductive FormatError where
  /-- A line that is not UTF-8. -/
  | notText
  /-- A document that is no JSON, or is none of the form expected. -/
  | json
  /-- Too few bytes for a binary model. -/
  | binary
deriving DecidableEq, Repr

def FormatError.message : FormatError → String
  | .notText => "not valid UTF-8"
  | .json => "not the JSON expected"
  | .binary => "too short for a model"

end TopicModel
