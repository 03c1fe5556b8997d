import TopicModel.Decimal.Shortest

/-!
# Texts of doubles

Two ways to write a double: `plain` (shortest digits, never an exponent) and `scientific n` (`n`
digits of the exact value and an exponent). `Numeral.places` and `Numeral.leading` set the point of
a numeral by position and behind the first digit.
-/

namespace TopicModel.Decimal

/-- Whether a double carries a minus sign, a negative zero included. -/
def isNegative (x : Float) : Bool := x.toBits >>> 63 == 1

def magnitude (x : Float) : Binary := Binary.ofBits x.toBits

/-- A text with its sign, or the name of a value that is no finite number. -/
def signed (x : Float) (write : Binary → String) : String :=
  if x.isNaN then "NaN"
  else
    let text := if x.isFinite then write (magnitude x) else "inf"
    if isNegative x then "-" ++ text else text

/-- The digits of a numeral before and behind the point, by position. -/
def Numeral.places (d : Numeral) : List Char × List Char :=
  let digits := Nat.toDigits 10 d.digits
  if 0 ≤ d.exponent then (digits ++ List.replicate d.exponent.toNat '0', [])
  else
    let behind := (-d.exponent).toNat
    if behind < digits.length then digits.splitAt (digits.length - behind)
    else (['0'], List.replicate (behind - digits.length) '0' ++ digits)

/-- The digits of a numeral with the point behind the first of them, and the power of ten. -/
def Numeral.leading (d : Numeral) : List Char × List Char × Int :=
  let digits := Nat.toDigits 10 d.digits
  let exponent : Int := if d.digits = 0 then 0 else d.exponent + (digits.length - 1 : Nat)
  (digits.take 1, digits.drop 1, exponent)

/-- Digits with a point between them, or without if none are behind it. -/
def withPoint (before behind : List Char) : String :=
  String.ofList (if behind.isEmpty then before else before ++ '.' :: behind)

/-- A numeral written by position. -/
def Numeral.positional (d : Numeral) : String :=
  let (before, behind) := d.places
  withPoint before behind

/-- A numeral written with one digit before the point and an exponent. -/
def Numeral.scientific (d : Numeral) : String :=
  let (before, behind, exponent) := d.leading
  withPoint before behind ++ "e" ++ toString exponent

/-- The shortest text of a double that never uses an exponent: `1`, `0.25`, `-0`, `NaN`. -/
def plain (x : Float) : String :=
  signed x fun b => (b.shortest .up).positional

/-- A double to `n` significant digits of its exact value, ties to even: `1.250e1`. -/
def scientific (n : Nat) (x : Float) : String :=
  signed x fun b =>
    let d := b.rounded n
    let carried : Numeral :=
      if d.digits = Nat.pow 10 n then ⟨Nat.pow 10 (n - 1), d.exponent + 1⟩ else d
    carried.scientific

end TopicModel.Decimal
