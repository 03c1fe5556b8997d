/-!
# Reading integers

`parseNatural` and `parseInteger` read decimal integers up to a limit, an optional sign in front.
A text is refused at its first fault: a character that is no digit, or the digit with which the
number leaves its range.
-/

namespace TopicModel.Decimal

/-- Why a text is no integer of the range asked for. -/
inductive IntegerFault where
  | invalidDigit
  | tooLarge
  | tooSmall
deriving DecidableEq, Repr

def IntegerFault.message : IntegerFault → String
  | .invalidDigit => "invalid digit found in string"
  | .tooLarge => "number too large to fit in target type"
  | .tooSmall => "number too small to fit in target type"

/-- Reads on from the number `n`, up to `limit`. -/
def digitsFrom (limit : Nat) (overflow : IntegerFault) :
    Nat → List Char → Except IntegerFault Nat
  | n, [] => .ok n
  | n, c :: cs =>
    if !c.isDigit then .error .invalidDigit
    else
      let next := 10 * n + (c.toNat - '0'.toNat)
      if limit < next then .error overflow else digitsFrom limit overflow next cs

def digits (limit : Nat) (overflow : IntegerFault) : List Char → Except IntegerFault Nat
  | [] => .error .invalidDigit
  | cs => digitsFrom limit overflow 0 cs

/-- A natural number up to `limit`, a plus sign in front or none. -/
def parseNatural (limit : Nat) : List Char → Except IntegerFault Nat
  | '+' :: cs => digits limit .tooLarge cs
  | cs => digits limit .tooLarge cs

/-- An integer of `bits` bits in two's complement, a sign in front or none. -/
def parseInteger (bits : Nat) : List Char → Except IntegerFault Int
  | '-' :: cs => (digits (1 <<< (bits - 1)) .tooSmall cs).map fun n => -(n : Int)
  | '+' :: cs => (digits (1 <<< (bits - 1) - 1) .tooLarge cs).map Int.ofNat
  | cs => (digits (1 <<< (bits - 1) - 1) .tooLarge cs).map Int.ofNat

def maxOfBits (bits : Nat) : Nat := 1 <<< bits - 1

end TopicModel.Decimal
