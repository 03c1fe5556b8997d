import TopicModel.Observer
import TopicModel.Worker

/-!
# Models

A model is fitted to documents, infers the topics of others and scores them. `Model.fitWorker` is
the run itself: an initial model from the random topics, then per iteration a sweep of every
partition against the model of the last iteration, the merge of their counts into the next one, and
every so often an evaluation, which may end the run early.

Fitting is given with the model as it is left: counts of the last completed iteration stay when a
later one fails.
-/

namespace TopicModel

variable {α : Type} [Scalar α] {γ : Type} [Generator γ] {σ : Type}

/-- The change between two perplexities in relation to the first. -/
def relativeChange (last current : α) : α :=
  let size := Scalar.abs last
  Scalar.abs (last - current) / (if Scalar.lt Scalar.tiny size then size else Scalar.tiny)

/-- A model, fitted or not. -/
structure Model (α : Type) where
  options : Options α
  fitted : Option (Broadcast α) := none
  /-- The evaluated iterations of the last fit with their perplexities. -/
  history : List (Nat × α) := []

/-- A run in progress, with the state `σ` of whoever watches it. -/
structure Training (α γ σ : Type) where
  model : Broadcast α
  worker : Worker
  generator : γ
  history : List (Nat × α)
  watcher : σ

namespace Training

def announce (notify : Event α → σ → σ) (t : Training α γ σ) (event : Event α) :
    Training α γ σ :=
  { t with watcher := notify event t.watcher }

/-- Sweeps every partition and merges the counts into the next model. -/
def advance [Arithmetic] (t : Training α γ σ) : Outcome α Unit × Training α γ σ :=
  let { model, worker, generator, history, watcher } := t
  match worker.sweep model .train 1 generator with
  | (.error e, worker, generator) => (.error e, { model, worker, generator, history, watcher })
  | (.ok (), worker, generator) =>
    match worker.tally model.options with
    | .error e => (.error e, { model, worker, generator, history, watcher })
    | .ok tally =>
      let (result, model) := model.replace tally
      (Outcome.ofCheck result, { model, worker, generator, history, watcher })

def evaluatesAfter (o : FitOptions α) (i : Nat) : Bool :=
  0 < o.evaluateEvery && (i + 1) % o.evaluateEvery == 0

/-- Whether a perplexity is close enough to the evaluation before it to end the run. -/
def converged (o : FitOptions α) (history : List (Nat × α)) (perplexity : α) : Bool :=
  match history.getLast? with
  | none => false
  | some (_, last) =>
    Scalar.lt Scalar.zero o.perplexityTol &&
      Scalar.lt (relativeChange last perplexity) o.perplexityTol

/-- Evaluates the perplexity of the corpus and says whether the run has converged. -/
def evaluate [Arithmetic] (o : FitOptions α) (notify : Event α → σ → σ) (i : Nat)
    (t : Training α γ σ) : Outcome α Bool × Training α γ σ :=
  let perplexity : Outcome α α := do
    let score ← t.worker.score t.model
    Outcome.ofCheck score.value
  match perplexity with
  | .error e => (.error e, t)
  | .ok p =>
    let t' := { t with history := t.history ++ [(i, p)] }
    (.ok (converged o t.history p), t'.announce notify (.evaluated i p))

/-- One iteration; true if the run has converged with it. -/
def iterate [Arithmetic] (o : FitOptions α) (notify : Event α → σ → σ) (i : Nat)
    (t : Training α γ σ) : Outcome α Bool × Training α γ σ :=
  match (t.announce notify (.before i)).advance with
  | (.error e, t) => (.error e, t)
  | (.ok (), t) =>
    let t := t.announce notify (.during i t.model)
    let (result, t) := if evaluatesAfter o i then evaluate o notify i t else (.ok false, t)
    match result with
    | .error e => (.error e, t)
    | .ok stop => (.ok stop, t.announce notify (.after i))

/-- At most `n` iterations, numbered from `i`. -/
def run [Arithmetic] (o : FitOptions α) (notify : Event α → σ → σ) :
    (n i : Nat) → Training α γ σ → Outcome α Unit × Training α γ σ
  | 0, _, t => (.ok (), t)
  | n + 1, i, t =>
    match iterate o notify i t with
    | (.error e, t) => (.error e, t)
    | (.ok true, t) => (.ok (), t)
    | (.ok false, t) => run o notify n (i + 1) t

end Training

/-- The number of partitions for a worker setting: none or one is a single one, a negative number
one per processor. -/
def partitionsFor (processors : Nat) (workers : Int) : Nat :=
  if workers < 0 then processors else max workers.toNat 1

/-- What a fit leaves: its result, the model, and the state of whoever watched it. -/
structure Fit (α τ σ : Type) where
  result : Outcome α τ
  model : Model α
  watcher : σ

namespace Model

/-- A model that is not fitted. -/
def ofOptions (o : Options α) : Model α := { options := o }

def isFitted (m : Model α) : Bool := m.fitted.isSome

def broadcast (m : Model α) : Except (Error α) (Broadcast α) :=
  match m.fitted with
  | some b => .ok b
  | none => .error .notFitted

/-- Fits the model with a worker whose topics are drawn. -/
def fitWorker [Arithmetic] (m : Model α) (w : Worker) (o : FitOptions α)
    (notify : Event α → σ → σ) (watcher : σ) : Fit α Unit σ × Worker :=
  match w.tally m.options with
  | .error e => (⟨.error e, m, watcher⟩, w)
  | .ok tally =>
    let start : Training α Xoshiro σ :=
      { model := .ofTally m.options tally, worker := w, generator := .ofSeed o.seed
        history := [], watcher := watcher }
    let (result, t) := start.run o notify o.iters 0
    (⟨result, { m with fitted := some t.model, history := t.history }, t.watcher⟩, t.worker)

def checkDocuments (o : Options α) : List Document → Except (Error α) Unit
  | [] => .ok ()
  | d :: rest => do
    d.checkWords o.vocSize
    checkDocuments o rest

def checkFit (m : Model α) (documents : List Document) (o : FitOptions α) :
    Except (Error α) Unit := do
  m.options.check
  o.check
  checkDocuments m.options documents

/-- Fits the model to documents and gives them back with their topics. -/
def fit [Arithmetic] (m : Model α) (processors : Nat) (documents : List Document)
    (o : FitOptions α) (notify : Event α → σ → σ) (watcher : σ) : Fit α (List TopicDocument) σ :=
  match m.checkFit documents o with
  | .error e => ⟨.error (.error e), m, watcher⟩
  | .ok () =>
    let worker := Worker.forCorpus documents (partitionsFor processors o.workers)
    match worker.init m.options.topicNum (Xoshiro.ofSeed o.seed) with
    | .error f => ⟨.error (.fault f), m, watcher⟩
    | .ok (worker, _) =>
      let (fit, worker) := m.fitWorker worker o notify watcher
      ⟨fit.result.map fun () => worker.results, fit.model, fit.watcher⟩

/-- Infers the topics of documents with the counts of the model left as they are. -/
def predict [Arithmetic] (m : Model α) (processors : Nat) (documents : List Document)
    (o : FitOptions α) : Outcome α (List TopicDocument) := do
  let b ← Outcome.ofCheck m.broadcast
  Outcome.ofCheck o.check
  Outcome.ofCheck (checkDocuments m.options documents)
  let worker := Worker.forCorpus documents (partitionsFor processors o.workers)
  let (worker, g) ← Outcome.ofFault (worker.init b.options.topicNum (Xoshiro.ofSeed o.seed))
  let (result, worker, _) := worker.sweep b .frozen o.predictSweeps g
  result
  return worker.results

def perplexity [Arithmetic] (m : Model α) (documents : List TopicDocument) : Outcome α α := do
  let b ← Outcome.ofCheck m.broadcast
  let pairs := documents.map fun d => (d.document, d.topics)
  let score ← Perplexity.empty.addDocuments b.options b.counts pairs
  Outcome.ofCheck score.value

end Model

end TopicModel
