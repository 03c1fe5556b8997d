import TopicModel.Command.Arguments
import TopicModel.Double
import TopicModel.Options

/-!
# Commands

There are three commands: to train a model on a corpus, to infer the topics of a corpus with a
trained model, and to score documents with their topics under a model. `Command.parse?` reads one
from the arguments of the program.
-/

namespace TopicModel

/-- A training: corpus, model file to write, file for the documents, and how to train. -/
structure TrainCommand where
  input : String
  model : String
  /-- File for the documents with their topics; the standard output if missing. -/
  output : Option String
  options : Options Float
  run : FitOptions Float
  verbose : Bool

/-- An inference: corpus, model file to read, and file for the documents. -/
structure PredictCommand where
  input : String
  model : String
  /-- File for the documents with their topics; the standard output if missing. -/
  output : Option String
  run : FitOptions Float

/-- A scoring: file of documents with their topics, and model file to read. -/
structure PerplexityCommand where
  input : String
  model : String

/-- What the program is asked to do. -/
inductive Command where
  | train (c : TrainCommand)
  | predict (c : PredictCommand)
  | perplexity (c : PerplexityCommand)

namespace Command

def fileOptions : List Declared := [
  { setting := .input, letters := ['i'], name := some "input" },
  { setting := .model, letters := ['m'], name := some "model" }]

def runOptions : List Declared := [
  { setting := .output, letters := ['o'], name := some "output" },
  { setting := .seed, name := some "seed" },
  { setting := .workers, letters := ['w', 't'] }]

def trainOptions : List Declared := fileOptions ++ runOptions ++ [
  { setting := .vocSize, name := some "voc-size" },
  { setting := .topicNum, letters := ['k'] },
  { setting := .alpha, letters := ['a'], name := some "alpha" },
  { setting := .beta, letters := ['b'], name := some "beta" },
  { setting := .iters, name := some "iters" },
  { setting := .evaluateEvery, name := some "evaluate-every" },
  { setting := .perplexityTol, name := some "perplexity-tol" },
  { setting := .verbose, letters := ['v'], name := some "verbose", takesValue := false }]

def predictOptions : List Declared := fileOptions ++ runOptions ++ [
  { setting := .sweeps, name := some "sweeps" }]

def path? (given : Assignments) (s : Setting) : Option String := (given.find? s).map String.ofList

/-- The options of a run that a command line sets; without a number of workers, one per
processor. -/
def run? (given : Assignments) : Option (FitOptions Float) := do
  let d : FitOptions Float := .standard
  return {
    seed := UInt64.ofNat (← given.valueOr? .seed (natural? 64) d.seed.toNat)
    iters := ← given.valueOr? .iters (natural? 64) d.iters
    workers := ← given.valueOr? .workers (integer? 32) (-1)
    predictSweeps := ← given.valueOr? .sweeps (natural? 64) d.predictSweeps
    evaluateEvery := ← given.valueOr? .evaluateEvery (natural? 64) d.evaluateEvery
    perplexityTol := ← given.valueOr? .perplexityTol double? d.perplexityTol }

/-- The options of the model that a command line asks for: ten topics unless told otherwise, and
symmetric concentrations. -/
def modelOptions? (given : Assignments) : Option (Options Float) := do
  let vocSize ← (given.find? .vocSize).bind (natural? 64)
  let topicNum ← given.valueOr? .topicNum (natural? 64) 10
  let o : Options Float := .symmetric vocSize topicNum
  return { o with
    alpha := ← given.valueOr? .alpha double? o.alpha
    beta := ← given.valueOr? .beta double? o.beta }

def train? (arguments : List String) : Option TrainCommand := do
  let given ← distinctAssignments? trainOptions arguments
  return {
    input := ← path? given .input
    model := ← path? given .model
    output := path? given .output
    options := ← modelOptions? given
    run := ← run? given
    verbose := (given.find? .verbose).isSome }

def predict? (arguments : List String) : Option PredictCommand := do
  let given ← distinctAssignments? predictOptions arguments
  return {
    input := ← path? given .input
    model := ← path? given .model
    output := path? given .output
    run := ← run? given }

def perplexity? (arguments : List String) : Option PerplexityCommand := do
  let given ← distinctAssignments? fileOptions arguments
  return {
    input := ← path? given .input
    model := ← path? given .model }

def parse? : List String → Option Command
  | "train" :: arguments => (train? arguments).map .train
  | "predict" :: arguments => (predict? arguments).map .predict
  | "perplexity" :: arguments => (perplexity? arguments).map .perplexity
  | _ => none

end Command

end TopicModel
