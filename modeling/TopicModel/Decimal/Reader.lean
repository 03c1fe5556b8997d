import TopicModel.Decimal.Shortest

/-!
# Reading decimals

`parseFloat?` reads a decimal numeral with optional sign, point and exponent, or the name of an
infinity or of no number, and gives the double nearest to it.
-/

namespace TopicModel.Decimal

def Binary.toFloat (negative : Bool) (b : Binary) : Float :=
  Float.ofBits (if negative then b.toBits ||| 0x8000000000000000 else b.toBits)

/-- The double nearest to a numeral. A leading digit beyond the 310th place before the point is out
of reach of the doubles, one beyond the 330th place after it is zero. -/
def Numeral.nearest (d : Numeral) : Binary :=
  let top := (Nat.toDigits 10 d.digits).length + d.exponent
  if d.digits = 0 ∨ top < -330 then ⟨0, Binary.minExponent⟩
  else if 310 < top then ⟨1 <<< 52, 972⟩
  else Binary.nearest (d.digits * Nat.pow 10 d.exponent.toNat) (Nat.pow 10 (-d.exponent).toNat)

def spanDigits (cs : List Char) : List Char × List Char := cs.span Char.isDigit

def ofDigits (cs : List Char) : Nat := Nat.ofDigitChars 10 cs 0

/-- A sign at the front of a text, and the rest; true for a minus. -/
def splitSign : List Char → Bool × List Char
  | '-' :: cs => (true, cs)
  | '+' :: cs => (false, cs)
  | cs => (false, cs)

/-- The exponent at the end of a numeral: none, or a letter `e` with a signed number. -/
def parseExponent? : List Char → Option Int
  | [] => some 0
  | c :: cs =>
    if c = 'e' ∨ c = 'E' then
      let (negative, cs) := splitSign cs
      let (digits, rest) := spanDigits cs
      if digits.isEmpty ∨ !rest.isEmpty then none
      else some (if negative then -(ofDigits digits : Int) else ofDigits digits)
    else none

/-- A numeral without sign: digits with at most one point among them, and an exponent. -/
def parseNumeral? (cs : List Char) : Option Numeral :=
  let (whole, rest) := spanDigits cs
  let (fraction, rest) :=
    match rest with
    | '.' :: rest => spanDigits rest
    | _ => ([], rest)
  if whole.isEmpty ∧ fraction.isEmpty then none
  else (parseExponent? rest).map fun exponent =>
    ⟨ofDigits (whole ++ fraction), exponent - fraction.length⟩

/-- The double that a text denotes, if it is a numeral or a name. -/
def parseFloat? (text : String) : Option Float :=
  let (negative, cs) := splitSign text.toList
  let name := String.ofList (cs.map Char.toLower)
  if name = "inf" ∨ name = "infinity" then some ((⟨1 <<< 52, 972⟩ : Binary).toFloat negative)
  else if name = "nan" then some (Float.ofBits 0x7ff8000000000000)
  else (parseNumeral? cs).map fun d => d.nearest.toFloat negative

end TopicModel.Decimal
