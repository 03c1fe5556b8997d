import TopicModel.Command.Run

/-!
# The program

The commands on the files of the machine. Errors go to the standard error stream; the exit code is
two for a command line that is none, and one for a command that fails.
-/

namespace TopicModel

def contentOf (buffer : ByteArray) : Bytes := buffer.data.toList

def readOpen (handle : IO.FS.Handle) : IO Found := do
  try
    let buffer ← handle.readBinToEnd
    return .file (contentOf buffer)
  catch _ => return .unreadable

def loadFile (path : String) : IO Found := do
  try
    let handle ← IO.FS.Handle.mk path .read
    readOpen handle
  catch _ => return .missing

def saveFile (path : String) (content : Bytes) : IO Bool := do
  try
    IO.FS.writeBinFile path ⟨content.toArray⟩
    return true
  catch _ => return false

def printBytes (content : Bytes) : IO Unit := do
  let output ← IO.getStdout
  output.write ⟨content.toArray⟩
  output.flush

/-- The number of processors that the machine lists, one if it lists none. -/
def countProcessors : IO Nat := do
  match ← loadFile "/proc/cpuinfo" with
  | .file content =>
    let name := Text.encode "processor"
    return max 1 ((Text.lines content).countP fun line => name.isPrefixOf line)
  | _ => return 1

instance : Host IO where
  load := loadFile
  save := saveFile
  print := printBytes
  report := IO.eprintln
  processors := countProcessors

end TopicModel

def main (arguments : List String) : IO UInt32 := do
  match ← (TopicModel.Command.runArguments arguments : IO _) with
  | .ok () => return 0
  | .error .usage =>
    IO.eprintln TopicModel.Command.usageText
    return 2
  | .error refusal =>
    IO.eprintln refusal.message
    return 1
