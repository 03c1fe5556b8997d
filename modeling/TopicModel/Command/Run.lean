import TopicModel.Command.Basic
import TopicModel.Command.Host
import TopicModel.Corpus.Bags
import TopicModel.Storage.DocumentLine
import TopicModel.Storage.ModelFile

/-!
# Running commands

Each command reads its files, computes and writes, in that order. The model of a training is
written before the documents, and stays if these cannot be written.
-/

namespace TopicModel.Command

/-- Why a command fails. -/
inductive Refusal where
  | usage
  /-- A file that is not there, cannot be read or cannot be written. -/
  | file (path : String)
  | corpus (path : String) (cause : Corpus.Error)
  | format (path : String) (cause : FormatError)
  | failure (cause : Failure Float)

def usageText : String :=
  "usage: topicmodel train -i CORPUS -m MODEL --voc-size N [-o FILE] [-k N] [-a X] [-b X] " ++
    "[--iters N] [--evaluate-every N] [--perplexity-tol X] [--seed N] [-w N] [-v]\n" ++
  "       topicmodel predict -i CORPUS -m MODEL [-o FILE] [--sweeps N] [--seed N] [-w N]\n" ++
  "       topicmodel perplexity -i DOCUMENTS -m MODEL"

def Refusal.message : Refusal → String
  | .usage => usageText
  | .file path => path ++ ": no file to read or write"
  | .corpus path cause => path ++ ": " ++ cause.message
  | .format path cause => path ++ ": " ++ cause.message
  | .failure (.error cause) => cause.message
  | .failure (.fault _) => "a computation left its range"

/-- A step of a command. -/
abbrev Step (m : Type → Type) := ExceptT Refusal m

variable {m : Type → Type} [Monad m] [Host m]

def compute {τ : Type} (x : Outcome Float τ) : Step m τ :=
  ExceptT.mk (pure (x.mapError .failure))

def readFile (path : String) : Step m Bytes := do
  match ← Host.load path with
  | .file content => return content
  | _ => throw (.file path)

def writeFile (path : String) (content : Bytes) : Step m Unit := do
  unless ← Host.save path content do throw (.file path)

def readCorpus (path : String) : Step m (List Document) := do
  let content ← readFile path
  ExceptT.mk (pure ((Corpus.read content).mapError (.corpus path)))

def writeModel (path : String) (saved : SavedModel Float) : Step m Unit :=
  writeFile path (saved.encode path)

/-- The content of a model file. What can be opened but not read is refused like bad content. -/
def loadModel (path : String) : Step m (SavedModel Float) := do
  match ← Host.load path with
  | .missing => throw (.file path)
  | .unreadable => throw (.format path (SavedModel.refusal path))
  | .file content =>
    ExceptT.mk (pure ((SavedModel.decode path content).mapError (.format path)))

def readModel (path : String) : Step m (Restored Float) := do
  let saved ← loadModel path
  compute (Outcome.ofCheck saved.restore)

/-- Writes documents with their topics to a file, or to the output. -/
def putDocuments (path : Option String) (ds : List TopicDocument) : Step m Unit :=
  match path with
  | some path => writeFile path (writeDocuments ds)
  | none => Host.print (writeDocuments ds)

/-! ## Progress -/

/-- An observer of a run with the lines it has reported, latest first. -/
abbrev Progress := Observer Float Unit × List String

def progressLine (i : Nat) (measures : Measures Float) : String :=
  let values := measures.entries.map fun (name, x) => name ++ "=" ++ Decimal.plain x
  s!"iteration {i}: " ++ ", ".intercalate values

def observe (event : Event Float) : Progress → Progress
  | (observer, lines) =>
    let observer := (observer.notify event ()).1
    match event with
    | .after i => (observer, progressLine i observer.measures :: lines)
    | _ => (observer, lines)

/-! ## The commands -/

/-- Trains a model, writes it and then the documents with their topics. -/
def runTrain (c : TrainCommand) : Step m Unit := do
  let documents ← readCorpus c.input
  let processors ← Host.processors
  let start : Progress := (.monitor [Metric.logLikelihood] [] {}, [])
  let notify := if c.verbose then observe else fun _ p => p
  let fit := (Model.ofOptions c.options).fit processors documents c.run notify start
  fit.watcher.2.reverse.forM fun line => Host.report line
  let outputs ← compute fit.result
  let saved ← compute (Outcome.ofCheck fit.model.save)
  writeModel c.model saved
  putDocuments c.output outputs

/-- Infers the topics of a corpus and writes the documents with them. -/
def runPredict (c : PredictCommand) : Step m Unit := do
  let documents ← readCorpus c.input
  let model ← readModel c.model
  let processors ← Host.processors
  let outputs ← compute (model.predict processors documents c.run)
  putDocuments c.output outputs

def runPerplexity (c : PerplexityCommand) : Step m Unit := do
  let model ← readModel c.model
  let content ← readFile c.input
  let documents ← ExceptT.mk (pure ((readDocuments content).mapError (.format c.input)))
  let perplexity ← compute (model.perplexity documents)
  Host.print (Text.encode (Decimal.plain perplexity) ++ [Text.lineFeed])

/-- Runs a command. -/
def run : Command → Step m Unit
  | .train c => runTrain c
  | .predict c => runPredict c
  | .perplexity c => runPerplexity c

/-- Runs the command that the arguments of the program ask for. -/
def runArguments (arguments : List String) : m (Except Refusal Unit) :=
  match parse? arguments with
  | none => pure (.error .usage)
  | some c => ExceptT.run (run c)

end TopicModel.Command
