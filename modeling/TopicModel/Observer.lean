import TopicModel.Broadcast
import TopicModel.Likelihood

/-!
# Observers

A run announces its `Event`s to an observer, which cannot change the run. Observers share one state
`σ`, to which a leaf applies a function per event. A monitor keeps the measures of the current
iteration: it clears them before the iteration, lets its metrics fill them from the merged model,
adds the perplexity where it was evaluated, and passes every event on to its children in order.
-/

namespace TopicModel

variable {α σ : Type}

/-- What a run announces of the iteration with a given number. -/
inductive Event (α : Type) where
  | before (i : Nat)
  /-- The counts of the iteration were merged into this model. -/
  | during (i : Nat) (model : Broadcast α)
  | evaluated (i : Nat) (perplexity : α)
  | after (i : Nat)

/-- Values by name, in the order in which the names first came up. -/
structure Measures (α : Type) where
  entries : List (String × α) := []

namespace Measures

def get? (m : Measures α) (name : String) : Option α := m.entries.lookup name

def insert (m : Measures α) (name : String) (value : α) : Measures α :=
  ⟨go m.entries⟩
where
  go : List (String × α) → List (String × α)
    | [] => [(name, value)]
    | (key, old) :: rest => if key = name then (name, value) :: rest else (key, old) :: go rest

end Measures

/-- A measure of the merged model: from the iteration and the model it fills in measures, and may
leave a trace in the shared state. -/
structure Metric (α σ : Type) where
  compute : Nat → Broadcast α → Measures α × σ → Measures α × σ

def Metric.logLikelihood [Scalar α] : Metric α σ where
  compute _ b := fun (m, s) =>
    (m.insert "log_likelihood" (b.counts.logLikelihood b.options.beta), s)

def Metric.computeAll (metrics : List (Metric α σ)) (i : Nat) (b : Broadcast α)
    (start : Measures α × σ) : Measures α × σ :=
  metrics.foldl (fun acc metric => metric.compute i b acc) start

/-- An observer: a function of the events, or a monitor over other observers. -/
inductive Observer (α σ : Type) where
  | leaf (handle : Event α → σ → σ)
  | monitor (metrics : List (Metric α σ)) (children : List (Observer α σ)) (measures : Measures α)

namespace Observer

variable [Scalar α]

/-- The measures of a monitor after an event that its metrics have seen. -/
def updateMeasures [Arithmetic] (metrics : List (Metric α σ)) (measures : Measures α) (s : σ) :
    Event α → Measures α × σ
  | .before _ => ({}, s)
  | .during i b =>
    Metric.computeAll metrics i b (measures.insert "tokens" (Scalar.ofInt b.tokenCount), s)
  | .evaluated _ perplexity => (measures.insert "perplexity" perplexity, s)
  | .after _ => (measures, s)

mutual

def notify [Arithmetic] : Observer α σ → Event α → σ → Observer α σ × σ
  | leaf handle, event, s => (leaf handle, handle event s)
  | monitor metrics children measures, event, s =>
    let (measures, s) := updateMeasures metrics measures s event
    let (children, s) := notifyAll children event s
    (monitor metrics children measures, s)

def notifyAll [Arithmetic] : List (Observer α σ) → Event α → σ → List (Observer α σ) × σ
  | [], _, s => ([], s)
  | child :: rest, event, s =>
    let (child, s) := notify child event s
    let (rest, s) := notifyAll rest event s
    (child :: rest, s)

end

def measures : Observer α σ → Measures α
  | leaf _ => {}
  | monitor _ _ m => m

end Observer

end TopicModel
