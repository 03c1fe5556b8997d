import TopicModel.Text.Lines

/-!
# Files

What a command needs of the world around it is a `Host`: files by path, two streams to write to,
and the number of processors. `Directory` is a host in memory for trying commands out: a single
directory of files, with nothing outside of it.
-/

namespace TopicModel

/-- What stands at a path. -/
inductive Found where
  | missing
  /-- Something that can be opened but holds no bytes, such as a directory. -/
  | unreadable
  | file (content : Bytes)

/-- The world around a command. -/
class Host (m : Type → Type) where
  load : String → m Found
  /-- Writes a file; false if there can be none at the path. -/
  save : String → Bytes → m Bool
  print : Bytes → m Unit
  report : String → m Unit
  processors : m Nat

instance {m : Type → Type} [Monad m] [Host m] {ε : Type} : Host (ExceptT ε m) where
  load path := ExceptT.lift (Host.load path)
  save path content := ExceptT.lift (Host.save path content)
  print bytes := ExceptT.lift (Host.print bytes)
  report line := ExceptT.lift (Host.report line)
  processors := ExceptT.lift Host.processors

/-- A directory in memory, and what was printed. -/
structure Directory where
  files : List (String × Bytes) := []
  output : Bytes := []

namespace Directory

/-- What a path leads to from within a directory. -/
inductive Target where
  | self
  | file (name : String)
  | outside

/-- Follows a path whose directories, if any, are the directory itself. -/
def target (path : String) : Target :=
  let parts := (path.toList.splitOn '/').dropWhile fun part => part = [] ∨ part = ['.']
  if path.isEmpty ∨ path.startsWith "/" then .outside
  else match parts with
    | [] => .self
    | [name] => if name = ['.', '.'] then .outside else .file (String.ofList name)
    | _ => .outside

def get? (d : Directory) (name : String) : Option Bytes := d.files.lookup name

def put (d : Directory) (name : String) (content : Bytes) : Directory :=
  { d with files := (name, content) :: d.files.filter fun f => f.1 ≠ name }

def load (d : Directory) (path : String) : Found :=
  match target path with
  | .self => .unreadable
  | .outside => .missing
  | .file name =>
    match d.get? name with
    | some content => .file content
    | none => .missing

def save (d : Directory) (path : String) (content : Bytes) : Bool × Directory :=
  match target path with
  | .file name => (true, d.put name content)
  | _ => (false, d)

instance : Host (StateM Directory) where
  load path := return (← get).load path
  save path content := modifyGet fun d => d.save path content
  print bytes := modify fun d => { d with output := d.output ++ bytes }
  report _ := return ()
  processors := return 1

end Directory

end TopicModel
