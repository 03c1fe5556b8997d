import TopicModel.Json.Value

/-!
# Reading values

Numbers in a range, arrays, and the members of an object by name. `Value.isStrict` bounds the depth
of a value and asks every number for a double and every string for its text, also where nobody
reads them.
-/

namespace TopicModel.Json.Value

def natural? (bits : Nat) : Value → Option Nat
  | number n => n.integer?.bind fun i =>
    if 0 ≤ i ∧ i < (1 <<< bits : Nat) then some i.toNat else none
  | _ => none

/-- An integer of at most so many bits in two's complement. -/
def integer? (bits : Nat) : Value → Option Int
  | number n => n.integer?.bind fun i =>
    if -(1 <<< (bits - 1) : Nat) ≤ i ∧ i < (1 <<< (bits - 1) : Nat) then some i else none
  | _ => none

def double? : Value → Option Float
  | number n => n.double?
  | _ => none

def list? {τ : Type} (item? : Value → Option τ) : Value → Option (List τ)
  | array items => items.mapM item?
  | _ => none

/-- Members by the bytes of their names; none unless every name is a text. -/
def named? (members : List (Quoted × Value)) : Option (List (Bytes × Value)) :=
  members.mapM fun (name, v) => name.text?.map fun text => (Text.encode text, v)

/-- The value of a name that comes exactly once. -/
def member? (name : String) (members : List (Bytes × Value)) : Option Value :=
  match members.filter fun m => m.1 == Text.encode name with
  | [(_, v)] => some v
  | _ => none

mutual

/-- Whether a value is nested at most so deep, all its numbers are doubles and all its strings
texts. -/
def isStrict (depth : Nat) : Value → Bool
  | null => true
  | boolean _ => true
  | number n => n.double?.isSome
  | quoted q => q.text?.isSome
  | array items => 0 < depth && allStrict (depth - 1) items
  | object members => 0 < depth && membersStrict (depth - 1) members

def allStrict (depth : Nat) : List Value → Bool
  | [] => true
  | v :: vs => isStrict depth v && allStrict depth vs

def membersStrict (depth : Nat) : List (Quoted × Value) → Bool
  | [] => true
  | (name, v) :: ms => name.text?.isSome && isStrict depth v && membersStrict depth ms

end

end TopicModel.Json.Value
