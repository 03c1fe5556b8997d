import TopicModel.Scalar

/-!
# Doubles as scalars

The instance `Scalar Float` in which models are run. The gamma function is a shifted sum of eleven
terms (`LogGamma.series`), used on both sides of one half; outside the reals it was made for (below
zero, near the poles, far out) its values are whatever that sum gives.
-/

namespace TopicModel

namespace LogGamma

def shift : Float := 10.900511

/-- The first term of the sum, which stands alone. -/
def leading : Float := 2.48574089138753565546e-5

/-- The coefficients of the fractions, for the offsets 1 to 10. -/
def coefficients : List Float :=
  [1.05142378581721974210, -3.45687097222016235469, 4.51227709466894823700,
   -2.98285225323576655721, 1.05639711577126713077, -1.95428773191645869583e-1,
   1.70970543404441224307e-2, -5.71926117404305781283e-4, 4.63399473359903636708e-6,
   -2.71994908488607703910e-9]

/-- The sum of the coefficients over the denominators that `denominator` gives for 1 to 10. -/
def series (denominator : Float → Float) : Float :=
  (coefficients.zipIdx 1).foldl (fun s (c, i) => s + c / denominator (Float.ofNat i)) leading

def lnPi : Float := 1.1447298858494001741434

def lnTwoSqrtEOverPi : Float := 0.6207822376352452223455

def pi : Float := 3.14159265358979323846264338327950288

def e : Float := 2.71828182845904523536028747135266250

end LogGamma

open LogGamma in
/-- The logarithm of the gamma function: the shifted sum, by reflection below one half. -/
def lnGamma (x : Float) : Float :=
  if x < 0.5 then
    lnPi - (pi * x).sin.log - (series fun i => i - x).log - lnTwoSqrtEOverPi
      - (0.5 - x) * ((0.5 - x + shift) / e).log
  else
    (series fun i => x + i - 1.0).log + lnTwoSqrtEOverPi + (x - 0.5) * ((x - 0.5 + shift) / e).log

instance : Scalar Float where
  ofInt := Float.ofInt
  lt x y := x < y
  isFinite := Float.isFinite
  abs := Float.abs
  exp := Float.exp
  log := Float.log
  lnGamma := lnGamma
  tiny := Float.ofBits 0x0010000000000000

end TopicModel
