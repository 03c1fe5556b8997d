import TopicModel.Decimal.Text

/-!
# What can go wrong

`Error` lists the causes that a caller is told of and `Error.message` words them. A `Failure` is
either such a cause or a `Fault`: an access or a draw outside its range, which no validated input
leads to. The two are kept apart so that the absence of faults is a statement.
-/

namespace TopicModel

/-- The quantities that a caller sets. -/
inductive Parameter where
  | alpha
  | beta
  | perplexityTol
  | vocSize
  | topicNum
  | iters
  | predictSweeps
  | sweeps
deriving DecidableEq, Repr

def Parameter.name : Parameter → String
  | .alpha => "alpha"
  | .beta => "beta"
  | .perplexityTol => "perplexity_tol"
  | .vocSize => "voc_size"
  | .topicNum => "topic_num"
  | .iters => "iters"
  | .predictSweeps => "predict_sweeps"
  | .sweeps => "sweeps"

/-- The causes for which validation, sampling or evaluation is refused. -/
inductive Error (α : Type) where
  | invalidHyperParameter (parameter : Parameter) (value : α)
  /-- A size or a number of rounds that is zero. -/
  | invalidDimension (parameter : Parameter) (value : Nat)
  | lengthMismatch (document : Int) (words counts : Nat)
  | zeroCount (document : Int) (word : Nat)
  | wordOutOfRange (document : Int) (word vocSize : Nat)
  /-- Topic counts that are not one per topic. -/
  | topicCountLength (document : Int) (expected actual : Nat)
  /-- An assignment that is not one topic per token. -/
  | assignmentLength (document : Int) (expected actual : Nat)
  /-- Topic counts that do not sum to the number of tokens, or one that is negative. -/
  | topicCountSum (document : Int) (expected : Nat) (actual : Int)
  /-- A token assigned to a topic that does not exist. -/
  | topicOutOfRange (document : Int) (topic topicNum : Nat)
  /-- Counts whose layout is not the expected one. -/
  | modelShape (vocSize topicNum expected actual : Nat)
  /-- A weight that is not positive and finite, or one read from a negative count. -/
  | degenerateWeights (word topic : Nat) (weight : α)
  /-- A perplexity over no token. -/
  | emptyCorpus
  | notFitted
deriving DecidableEq, Repr

/-- The wording of an error, each value by its shortest text. -/
def Error.message : Error Float → String
  | .invalidHyperParameter p v =>
    let name := p.name
    let value := Decimal.plain v
    s!"hyperparameter `{name}` must be positive and finite, got {value}"
  | .invalidDimension p value =>
    let name := p.name
    s!"`{name}` must be positive, got {value}"
  | .lengthMismatch id words counts => s!"document {id}: {words} words but {counts} counts"
  | .zeroCount id word => s!"document {id}: word {word} has a zero count"
  | .wordOutOfRange id word vocSize =>
    s!"document {id}: word id {word} outside vocabulary of size {vocSize}"
  | .topicCountLength id expected actual =>
    s!"document {id}: topic_count has {actual} entries, expected {expected}"
  | .assignmentLength id expected actual =>
    s!"document {id}: topic_assignment has {actual} entries, expected {expected}"
  | .topicCountSum id expected actual =>
    s!"document {id}: topic_count sums to {actual}, expected {expected}"
  | .topicOutOfRange id topic topicNum =>
    s!"document {id}: topic {topic} outside [0, {topicNum})"
  | .modelShape vocSize topicNum expected actual =>
    s!"model has {actual} entries, expected {expected} for a ({vocSize} + 1) x {topicNum} layout"
  | .degenerateWeights word topic v =>
    let weight := Decimal.plain v
    s!"degenerate sampling weights for word {word}: topic {topic} has weight {weight}"
  | .emptyCorpus => "perplexity is undefined over zero tokens"
  | .notFitted => "model has not been fitted yet"

/-- An access or a draw outside its range. -/
inductive Fault where
  /-- An entry that does not exist was read or written. -/
  | indexOutOfRange
  /-- A draw was asked for among no alternatives. -/
  | emptyRange
  | shapeMismatch
deriving DecidableEq, Repr

/-- Why a computation stopped: a cause its caller is told of, or a fault. -/
inductive Failure (α : Type) where
  | error (cause : Error α)
  | fault (fault : Fault)
deriving DecidableEq, Repr

abbrev Outcome (α τ : Type) := Except (Failure α) τ

/-- A missing value is an access out of range. -/
def Outcome.ofOption {α τ : Type} : Option τ → Outcome α τ
  | some x => .ok x
  | none => .error (.fault .indexOutOfRange)

def Outcome.ofFault {α τ : Type} : Except Fault τ → Outcome α τ
  | .ok x => .ok x
  | .error f => .error (.fault f)

def Outcome.ofCheck {α τ : Type} : Except (Error α) τ → Outcome α τ
  | .ok x => .ok x
  | .error e => .error (.error e)

/-! ## Steps one after the other -/

namespace Outcome

variable {α ε τ τ' : Type}

@[simp] theorem ok_bind (x : τ) (f : τ → Except ε τ') : (Except.ok x >>= f) = f x := rfl

@[simp] theorem error_bind (e : ε) (f : τ → Except ε τ') : (Except.error e >>= f) = .error e := rfl

@[simp] theorem throw_eq (e : ε) : (throw e : Except ε τ) = .error e := rfl

theorem bind_eq_ok_iff {x : Except ε τ} {f : τ → Except ε τ'} {y : τ'} :
    (x >>= f) = .ok y ↔ ∃ z, x = .ok z ∧ f z = .ok y := by
  cases x <;> simp

theorem bind_eq_error_iff {x : Except ε τ} {f : τ → Except ε τ'} {e : ε} :
    (x >>= f) = .error e ↔ x = .error e ∨ ∃ z, x = .ok z ∧ f z = .error e := by
  cases x <;> simp

theorem map_eq_ok_iff {x : Except ε τ} {f : τ → τ'} {y : τ'} :
    x.map f = .ok y ↔ ∃ z, x = .ok z ∧ f z = y := by
  cases x <;> simp [Except.map]

theorem map_eq_error_iff {x : Except ε τ} {f : τ → τ'} {e : ε} :
    x.map f = .error e ↔ x = .error e := by
  cases x <;> simp [Except.map]

theorem mapError_eq_error_iff {ε' : Type} {x : Except ε τ} {f : ε → ε'} {e : ε'} :
    x.mapError f = .error e ↔ ∃ e', x = .error e' ∧ f e' = e := by
  constructor
  · intro h
    cases x with
    | ok y => cases h
    | error e' =>
      cases h
      exact ⟨e', rfl, rfl⟩
  · rintro ⟨e', rfl, rfl⟩
    rfl

theorem mapError_eq_ok_iff {ε' : Type} {x : Except ε τ} {f : ε → ε'} {y : τ} :
    x.mapError f = .ok y ↔ x = .ok y := by
  constructor
  · intro h
    cases x <;> cases h
    rfl
  · rintro rfl
    rfl

@[simp] theorem ofCheck_ok (x : τ) : (ofCheck (.ok x) : Outcome α τ) = .ok x := rfl

@[simp] theorem ofFault_ok (x : τ) : (ofFault (.ok x) : Outcome α τ) = .ok x := rfl

end Outcome

end TopicModel
