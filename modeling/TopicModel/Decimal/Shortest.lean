import TopicModel.Decimal.Rounding

/-!
# Shortest decimals

`shortest tie x` is the decimal with the fewest digits among those that round to the double `x`,
and of these the nearest to `x`. The search walks the grids of 1, 2, … 17 digits below the leading
digit of `x` and looks at the two neighbours of `x` on each: if any point of a grid rounds to `x`,
one of these two does. `rounded n x` is `x` on the grid of `n` digits.
-/

namespace TopicModel.Decimal

/-- A non-negative decimal, `digits * 10 ^ exponent`. -/
structure Numeral where
  digits : Nat
  exponent : Int
deriving DecidableEq, Repr

/-- Moves trailing zeros of the digits into the exponent, at most `fuel` of them. -/
def Numeral.strip (fuel : Nat) (d : Numeral) : Numeral :=
  match fuel with
  | 0 => d
  | fuel + 1 =>
    if d.digits ≠ 0 ∧ d.digits % 10 = 0 then Numeral.strip fuel ⟨d.digits / 10, d.exponent + 1⟩
    else d

/-- A positive double seen on the decimal grid `10 ^ exponent`: in units of `1 / unit`, the double
itself and the two ends of the interval of reals that round to it. -/
structure OnGrid where
  value : Nat
  lower : Nat
  upper : Nat
  unit : Nat

namespace Binary

/-- A double and its rounding interval on the grid `10 ^ exponent`. The lower half-gap is a
quarter instead of a half where the double is a power of two and not the least normal one. -/
def onGrid (x : Binary) (exponent : Int) : OnGrid :=
  let e := x.exponent - 2
  let scale := Nat.pow 10 (-exponent).toNat <<< e.toNat
  let below := if x.significand = 1 <<< 52 ∧ minExponent < x.exponent then 1 else 2
  { value := 4 * x.significand * scale
    lower := (4 * x.significand - below) * scale
    upper := (4 * x.significand + 2) * scale
    unit := Nat.pow 10 exponent.toNat <<< (-e).toNat }

/-- Whether the grid point `c` rounds to the double: the ends count when its significand is even. -/
def hits (x : Binary) (g : OnGrid) (c : Nat) : Bool :=
  if x.significand % 2 = 0 then g.lower ≤ c * g.unit && c * g.unit ≤ g.upper
  else g.lower < c * g.unit && c * g.unit < g.upper

/-- The power of ten just above a positive double: `10 ^ (magnitude - 1) ≤ x < 10 ^ magnitude`.
Four hundred decimal places are enough to give the least double a leading digit. -/
def magnitude (x : Binary) : Int :=
  let places : Nat := 400
  let scaled :=
    ((x.significand * Nat.pow 10 places) <<< x.exponent.toNat) >>> (-x.exponent).toNat
  (Nat.toDigits 10 scaled).length - (places : Int)

/-- The neighbour of a double on one grid that rounds to it and is nearest to it, if any. -/
def nearestHit? (tie : Tie) (x : Binary) (exponent : Int) : Option Numeral :=
  let g := x.onGrid exponent
  let c := g.value / g.unit
  match x.hits g c, x.hits g (c + 1) with
  | true, true => some ⟨divNearest tie g.value g.unit, exponent⟩
  | true, false => some ⟨c, exponent⟩
  | false, true => some ⟨c + 1, exponent⟩
  | false, false => none

/-- A double rounded to `n` significant digits, ties to even. -/
def rounded (n : Nat) (x : Binary) : Numeral :=
  if x.significand = 0 then ⟨0, 0⟩
  else
    let exponent := x.magnitude - n
    let g := x.onGrid exponent
    ⟨divNearest .toEven g.value g.unit, exponent⟩

/-- The decimal with the fewest digits that rounds to the double, and of these the nearest. -/
def shortest (tie : Tie) (x : Binary) : Numeral :=
  if x.significand = 0 then ⟨0, 0⟩
  else
    let k := x.magnitude
    let hit := (List.range' 1 17).findSome? fun n : Nat => x.nearestHit? tie (k - n)
    Numeral.strip 17 (hit.getD (x.rounded 17))

end Binary

end TopicModel.Decimal
