/-!
# Lines of bytes

A file is a list of bytes. `lines` cuts it at the line feeds, `decode?` reads a line as UTF-8.
-/

namespace TopicModel

abbrev Bytes := List UInt8

namespace Text

def encode (text : String) : Bytes := text.toUTF8.data.toList

def decode? (bytes : Bytes) : Option String := String.fromUTF8? ⟨bytes.toArray⟩

def lineFeed : UInt8 := 0x0a

/-- A line without the carriage return before its line feed. -/
def dropReturn (line : Bytes) : Bytes :=
  if line.getLast? = some 0x0d then line.dropLast else line

/-- The lines of a file. Each ends at a line feed, which it loses together with one carriage return
before it; bytes after the last line feed are a line as they are. -/
def lines (bytes : Bytes) : List Bytes :=
  let pieces := bytes.splitOn lineFeed
  pieces.dropLast.map dropReturn ++ pieces.getLast?.toList.filter fun last => !last.isEmpty

end Text

end TopicModel
