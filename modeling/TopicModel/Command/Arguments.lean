import TopicModel.Decimal.Integer
import TopicModel.Decimal.Reader

/-!
# Options of a command line

A command declares its options; `assignments?` reads arguments against them. An option is written
`--name value`, `--name=value`, `-x value`, `-xvalue` or `-x=value`, and flags may be put together
behind one dash. An argument that starts with a dash is never the value of the option before it,
and no option comes twice.
-/

namespace TopicModel.Command

/-- What an option sets. -/
inductive Setting where
  | input
  | model
  | output
  | vocSize
  | topicNum
  | alpha
  | beta
  | iters
  | evaluateEvery
  | perplexityTol
  | sweeps
  | seed
  | workers
  | verbose
deriving DecidableEq, Repr

/-- An option: what it sets and how it is written. -/
structure Declared where
  setting : Setting
  letters : List Char := []
  name : Option String := none
  takesValue : Bool := true

/-- Settings with the texts of their values, empty for a flag. -/
abbrev Assignments := List (Setting × List Char)

/-- The options in an argument: those with their values, and one that awaits its own. -/
structure Argument where
  complete : Assignments := []
  awaiting : Option Setting := none

namespace Argument

def ofOption? (d : Declared) (value : Option (List Char)) : Option Argument :=
  match d.takesValue, value with
  | true, some v => some { complete := [(d.setting, v)] }
  | true, none => some { awaiting := some d.setting }
  | false, none => some { complete := [(d.setting, [])] }
  | false, some _ => none

/-- What follows two dashes: a name, and a value behind the first equals sign. -/
def ofName? (ds : List Declared) (body : List Char) : Option Argument :=
  let (name, rest) := body.span (· ≠ '=')
  let value := if rest.isEmpty then none else some (rest.drop 1)
  (ds.find? fun d => d.name = some (String.ofList name)).bind fun d => ofOption? d value

/-- What follows one dash: flags, then perhaps an option and its value. -/
def ofLetters? (ds : List Declared) : List Char → Option Argument
  | [] => some {}
  | c :: cs => do
    let d ← ds.find? fun d => d.letters.contains c
    if d.takesValue then
      match cs with
      | [] => ofOption? d none
      | '=' :: value => ofOption? d (some value)
      | value => ofOption? d (some value)
    else
      let others ← ofLetters? ds cs
      return { others with complete := (d.setting, []) :: others.complete }

/-- The options in an argument; none for one that is no option. -/
def parse? (ds : List Declared) : List Char → Option Argument
  | '-' :: '-' :: body => ofName? ds body
  | ['-'] => none
  | '-' :: letters => ofLetters? ds letters
  | _ => none

end Argument

def startsOption : List Char → Bool
  | '-' :: _ :: _ => true
  | _ => false

/-- The assignments of arguments. Two dashes alone may stand at the end. -/
def assignments? (ds : List Declared) : List (List Char) → Option Assignments
  | [] => some []
  | [['-', '-']] => some []
  | argument :: rest => do
    let a ← Argument.parse? ds argument
    match a.awaiting, rest with
    | none, rest =>
      let others ← assignments? ds rest
      return a.complete ++ others
    | some setting, value :: rest =>
      if startsOption value then none
      else
        let others ← assignments? ds rest
        return a.complete ++ (setting, value) :: others
    | some _, [] => none

def distinctAssignments? (ds : List Declared) (arguments : List String) : Option Assignments := do
  let given ← assignments? ds (arguments.map String.toList)
  if (given.map Prod.fst).Nodup then return given else none

namespace Assignments

def find? (given : Assignments) (s : Setting) : Option (List Char) := given.lookup s

/-- The value of a setting that may be missing; none if its text has no value. -/
def value? {τ : Type} (given : Assignments) (s : Setting) (parse? : List Char → Option τ) :
    Option (Option τ) :=
  match given.find? s with
  | none => some none
  | some text => (parse? text).map some

def valueOr? {τ : Type} (given : Assignments) (s : Setting) (parse? : List Char → Option τ)
    (default : τ) : Option τ :=
  (given.value? s parse?).map fun value => value.getD default

end Assignments

/-- A natural number of at most so many bits, as an option's value. -/
def natural? (bits : Nat) (cs : List Char) : Option Nat :=
  (Decimal.parseNatural (Decimal.maxOfBits bits) cs).toOption

/-- An integer of at most so many bits, as an option's value. -/
def integer? (bits : Nat) (cs : List Char) : Option Int := (Decimal.parseInteger bits cs).toOption

def double? (cs : List Char) : Option Float := Decimal.parseFloat? (String.ofList cs)

end TopicModel.Command
