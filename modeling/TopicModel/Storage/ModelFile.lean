import TopicModel.Storage.FormatError
import TopicModel.Storage.ModelBinary
import TopicModel.Storage.ModelJson

/-!
# Model files

The path of a model file decides on its form: JSON if the file name ends in `.json`, whatever the
case of the letters, binary words otherwise.
-/

namespace TopicModel

/-- The name of the file at a path, if it has one: its last part that is not empty or a dot. -/
def fileName? (path : List Char) : Option (List Char) :=
  let parts := (path.splitOn '/').filter fun part => part ≠ [] ∧ part ≠ ['.']
  parts.getLast?.filter (· ≠ ['.', '.'])

/-- The letters after the last dot of a file name, if some stand before it. -/
def extension? (name : List Char) : Option (List Char) :=
  match name.reverse.span (· ≠ '.') with
  | (_, []) => none
  | (_, ['.']) => none
  | (ending, _) => some ending.reverse

/-- Whether the file at a path is a JSON document by its name. -/
def isJsonPath (path : String) : Bool :=
  ((fileName? path.toList).bind extension?).any fun ending =>
    ending.map Char.toLower = ['j', 's', 'o', 'n']

namespace SavedModel

def encode (path : String) (s : SavedModel Float) : Bytes :=
  if isJsonPath path then s.writtenJson .indented else s.writtenBinary

def refusal (path : String) : FormatError := if isJsonPath path then .json else .binary

def decode (path : String) (bytes : Bytes) : Except FormatError (SavedModel Float) :=
  match if isJsonPath path then parseJson? bytes else parseBinary? bytes with
  | some s => .ok s
  | none => .error (refusal path)

end SavedModel

end TopicModel
