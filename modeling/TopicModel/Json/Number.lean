import TopicModel.Decimal.Reader
import TopicModel.Decimal.Text

/-!
# Number literals

A JSON number as it is written, with its two readings. `Number.integer?` takes a literal that has
neither point nor exponent. `Number.double?` reads to a double in one rounding step after another:
the leading digits that fit a word are converted, then scaled by a power of ten. Up to fifteen
digits and a power of ten up to `10 ^ 22` this gives the nearest double, beyond that perhaps one of
its neighbours.
-/

namespace TopicModel.Json

/-- A number as it is written: the digits on both sides of the point, and the exponent if any. -/
structure Number where
  negative : Bool
  whole : List Char
  fraction : List Char
  exponent : Option Int
deriving DecidableEq, Repr

namespace Number

/-! ## Writing -/

def ofInt (n : Int) : Number := ⟨n < 0, Nat.toDigits 10 n.natAbs, [], none⟩

/-- The literal of a finite double: its shortest digits, by position if the first of them stands
between the fifth place behind the point and the sixteenth before it, and never without point and
exponent both. -/
def ofFloat (x : Float) : Number :=
  let d := (Decimal.magnitude x).shortest .toEven
  let point := (Nat.toDigits 10 d.digits).length + d.exponent
  if d.digits = 0 ∨ (-5 < point ∧ point ≤ 16) then
    let (before, behind) := d.places
    ⟨Decimal.isNegative x, before, if behind.isEmpty then ['0'] else behind, none⟩
  else
    let (before, behind, exponent) := d.leading
    ⟨Decimal.isNegative x, before, behind, some exponent⟩

def integerText (n : Int) : List Char :=
  if n < 0 then '-' :: Nat.toDigits 10 n.natAbs else Nat.toDigits 10 n.natAbs

def text (n : Number) : List Char :=
  (if n.negative then ['-'] else []) ++ n.whole ++
    (if n.fraction.isEmpty then [] else '.' :: n.fraction) ++
    (match n.exponent with
      | some e => 'e' :: integerText e
      | none => [])

/-! ## Reading -/

def finish? (negative : Bool) (whole fraction : List Char) : List Char → Option Number
  | [] => some ⟨negative, whole, fraction, none⟩
  | rest => (Decimal.parseExponent? rest).map fun e => ⟨negative, whole, fraction, some e⟩

/-- A literal without its sign: no zero in front of other digits, no point without digits. -/
def magnitude? (negative : Bool) (cs : List Char) : Option Number :=
  let (whole, rest) := Decimal.spanDigits cs
  if whole.isEmpty ∨ (whole.head? = some '0' ∧ whole ≠ ['0']) then none
  else match rest with
    | '.' :: rest =>
      let (fraction, rest) := Decimal.spanDigits rest
      if fraction.isEmpty then none else finish? negative whole fraction rest
    | rest => finish? negative whole [] rest

def parse? : List Char → Option Number
  | '-' :: cs => magnitude? true cs
  | cs => magnitude? false cs

/-! ## Values -/

/-- The integer that a literal denotes; none for one with a point or an exponent, and none for a
zero with a sign. -/
def integer? (n : Number) : Option Int :=
  let size := Decimal.ofDigits n.whole
  if !n.fraction.isEmpty ∨ n.exponent.isSome ∨ (n.negative ∧ size = 0) then none
  else some (if n.negative then -(size : Int) else size)

/-- Appends digits to a number as long as it stays below `2 ^ 64`; the other digits are left. -/
def gather : Nat → List Char → Nat × List Char
  | n, [] => (n, [])
  | n, c :: cs =>
    let next := 10 * n + (c.toNat - '0'.toNat)
    if next < UInt64.size then gather next cs else (n, c :: cs)

/-- The double nearest to a natural number times a power of ten. -/
def nearest (digits exponent : Nat) : Float :=
  (Decimal.Numeral.nearest ⟨digits, exponent⟩).toFloat false

/-- A double divided by a power of ten, in two steps if the power is not a double. -/
def divide (x : Float) (power : Nat) : Float :=
  if power ≤ 308 then x / nearest 1 power
  else if power ≤ 616 then x / nearest 1 308 / nearest 1 (power - 308)
  else 0

def scale? (word : Nat) (exponent : Int) : Option Float :=
  let x := nearest word 0
  if exponent < 0 then some (divide x (-exponent).toNat)
  else if exponent = 0 ∨ word = 0 then some x
  else if 308 < exponent then none
  else
    let y := x * nearest 1 exponent.toNat
    if y.isFinite then some y else none

def double? (n : Number) : Option Float :=
  let (word, wholeLeft) := gather 0 n.whole
  let (word, fractionLeft) := gather word n.fraction
  let taken := n.fraction.length - fractionLeft.length
  let exponent := (wholeLeft.length : Int) - taken + n.exponent.getD 0
  (scale? word exponent).map fun x => if n.negative then -x else x

end Number

end TopicModel.Json
