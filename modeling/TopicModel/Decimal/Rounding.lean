/-!
# Rounding to a grid

Quotients of natural numbers rounded to the nearest integer (`divNearest`) and to the nearest
double (`Binary.nearest`), in exact integer arithmetic. A double is held as its significand and
exponent, `significand * 2 ^ exponent`, so the rounding itself is a statement about `Nat`.
-/

namespace TopicModel.Decimal

/-- How a value halfway between two neighbours is rounded. -/
inductive Tie where
  | toEven
  | up
deriving DecidableEq, Repr

def divNearest (tie : Tie) (num den : Nat) : Nat :=
  let q := num / den
  let twice := 2 * (num % den)
  if den < twice then q + 1
  else if twice < den then q
  else match tie with
    | .up => q + 1
    | .toEven => q + q % 2

/-- A rounded quotient is within half a unit of the exact one. -/
theorem divNearest_near (tie : Tie) (num den : Nat) (h : 0 < den) :
    2 * num ≤ 2 * (divNearest tie num den * den) + den ∧
      2 * (divNearest tie num den * den) ≤ 2 * num + den := by
  have hd := Nat.div_add_mod num den
  have hm := Nat.mod_lt num h
  have hs : (num / den + 1) * den = den * (num / den) + den := by
    rw [Nat.add_mul, Nat.one_mul, Nat.mul_comm]
  have hq : num / den * den = den * (num / den) := Nat.mul_comm ..
  unfold divNearest
  simp only
  split
  · omega
  split
  · omega
  cases tie with
  | up => simp only; omega
  | toEven =>
    simp only
    rcases Nat.mod_two_eq_zero_or_one (num / den) with h2 | h2 <;> rw [h2]
    · rw [Nat.add_zero]; omega
    · omega

/-- A non-negative double, `significand * 2 ^ exponent`. -/
structure Binary where
  significand : Nat
  exponent : Int
deriving DecidableEq, Repr

namespace Binary

/-- Exponent of the least positive double. -/
def minExponent : Int := -1074

/-- The exponent that leaves a quotient a significand of 53 bits, or the least exponent. -/
def exponentFor (num den : Nat) : Int :=
  let guess : Int := Nat.log2 num - Nat.log2 den - 52
  let fits := num <<< (-guess).toNat < den <<< (guess.toNat + 52)
  max minExponent (if fits then guess - 1 else guess)

/-- The double nearest to `num / den`, ties to the even significand. The exponent has no upper
limit: an overflow is for the reader of the result to see. -/
def nearest (num den : Nat) : Binary :=
  let e := exponentFor num den
  ⟨divNearest .toEven (num <<< (-e).toNat) (den <<< e.toNat), e⟩

def floor (x : Binary) : Nat :=
  (x.significand <<< x.exponent.toNat) >>> (-x.exponent).toNat

/-- The least integer that is not below a double. -/
def ceil (x : Binary) : Nat :=
  (x.significand <<< x.exponent.toNat + (1 <<< (-x.exponent).toNat - 1)) >>> (-x.exponent).toNat

/-- The bits of a non-negative double; too large a value gives those of infinity. -/
def toBits (x : Binary) : UInt64 :=
  let bits := (x.exponent - minExponent).toNat <<< 52 + x.significand
  UInt64.ofNat (min bits (0x7ff <<< 52))

/-- The magnitude of a finite double, from its bits without the sign. -/
def ofBits (bits : UInt64) : Binary :=
  let field : Nat := (bits.toNat >>> 52) % (1 <<< 11)
  let fraction := bits.toNat % (1 <<< 52)
  if field = 0 then ⟨fraction, minExponent⟩
  else ⟨fraction + 1 <<< 52, minExponent + (field - 1 : Nat)⟩

end Binary

end TopicModel.Decimal
