import Mathlib
import TopicModel.Double
import TopicModel.Random.Generator

/-!
# Signs of doubles

What rounding leaves of the signs of sums and products, from the logical model of doubles. A datum
is the unpacked form of a double, of which a finite one has a mantissa and an exponent.

* `Positive`: the datum is positive, and is that of a double. Packing keeps it (`Positive.repack`)
  and so does adding (`Positive.add`): a sum of positive doubles is positive, if perhaps infinite,
  since its exponent is at least the smaller of the two and rounding never takes the last bit of a
  mantissa away (`shift_pos`).
* `Unsigned`: the datum has no minus sign. Numbers in `[0, 1)` made of random words have none, and
  so their product with an infinity is below nothing (`not_lt_unit_mul_infinite`).
-/

namespace TopicModel

namespace Doubles

open Float.Model (UnpackedFloat Format)
open Float.Model.UnpackedFloat

variable {f f' : UnpackedFloat} {m : Nat} {e : Int}

/-! ## Packing -/

@[simp] theorem unpackSign_packComponents {spec : Format} {sign : Sign}
    {exponent : BitVec spec.exponentBits} {mantissa : BitVec spec.mantissaBitsWithoutImplicit} :
    unpackSign (packComponents spec sign exponent mantissa) = sign.toBitVec := by
  ext i hi
  obtain rfl : i = 0 := by omega
  simp [unpackSign, packComponents, BitVec.getElem_append, BitVec.getLsbD_append]

@[simp] theorem ofBitVec_toBitVec (sign : Sign) : Sign.ofBitVec sign.toBitVec = sign := by
  cases sign <;> rfl

/-- What the bits of a double can stand for. -/
theorem unpack_cases (b : BitVec Format.binary64.numBits) :
    let sign := Sign.ofBitVec (unpackSign b)
    (unpackExponent b = -1#11 ∧ unpackMantissa b = 0#52 ∧
        unpack .binary64 b = .infinity sign) ∨
      (unpackExponent b = -1#11 ∧ unpackMantissa b ≠ 0#52 ∧
        unpack .binary64 b = .notANumber) ∨
      (unpackExponent b = 0#11 ∧ unpackMantissa b = 0#52 ∧ unpack .binary64 b = .zero sign) ∨
      ∃ m e hm, -1074 ≤ e ∧ m < 2 ^ 53 ∧ unpack .binary64 b = .finite sign m e hm := by
  have hbias : Format.binary64.exponentBias = 1023 := rfl
  intro sign
  by_cases hmax : unpackExponent b = -1#11
  · by_cases hzero : unpackMantissa b = 0#52
    · exact .inl ⟨hmax, hzero, by simp [unpack, hmax, hzero, sign]⟩
    · exact .inr (.inl ⟨hmax, hzero, by simp [unpack, hmax, hzero]⟩)
  · by_cases hmin : unpackExponent b = 0#11
    · by_cases hzero : unpackMantissa b = 0#52
      · exact .inr (.inr (.inl ⟨hmin, hzero, by simp [unpack, hmin, hzero, sign]⟩))
      · have hpos : 0 < (unpackMantissa b).toNat := by
          rw [BitVec.toNat_pos]
          exact (BitVec.pos_iff_ne_zero _).2 hzero
        refine .inr (.inr (.inr ⟨(unpackMantissa b).toNat, -1074, hpos, le_refl _, ?_, ?_⟩))
        · exact (unpackMantissa b).isLt.trans (by decide)
        · simp [unpack, hmin, hzero, hbias, sign]
    · have hpos : 0 < (unpackExponent b).toNat := by
        rw [BitVec.toNat_pos]
        exact (BitVec.pos_iff_ne_zero _).2 hmin
      have hleading : 0 < (1#1 ++ unpackMantissa b).toNat := by
        rw [BitVec.toNat_append]
        exact Nat.lt_of_lt_of_le (by decide) Nat.left_le_or
      refine .inr (.inr (.inr ⟨(1#1 ++ unpackMantissa b).toNat, (unpackExponent b).toNat - 1075,
        hleading, by omega, (1#1 ++ unpackMantissa b).isLt, ?_⟩))
      unfold unpack
      dsimp only
      rw [if_neg hmax, if_neg hmin, hbias]
      rfl

/-- The datum has no minus sign. -/
def Unsigned : UnpackedFloat → Prop
  | .notANumber => True
  | .infinity sign => sign = .positive
  | .zero sign => sign = .positive
  | .finite sign _ _ _ => sign = .positive

/-- The datum is that of a positive double. -/
def Positive : UnpackedFloat → Prop
  | .infinity .positive => True
  | .finite .positive m e _ => -1074 ≤ e ∧ m < 2 ^ 53
  | _ => False

section
variable {exponent : BitVec 11} {mantissa : BitVec 52}

theorem unsigned_unpack (b : BitVec Format.binary64.numBits) (h : unpackSign b = 0#1) :
    Unsigned (unpack .binary64 b) := by
  have hsign : Sign.ofBitVec (unpackSign b) = .positive := by rw [h]; rfl
  have hcases := unpack_cases b
  rw [hsign] at hcases
  rcases hcases with ⟨-, -, h⟩ | ⟨-, -, h⟩ | ⟨-, -, h⟩ | ⟨_, _, _, -, -, h⟩ <;> rw [h]
  · rfl
  · trivial
  · rfl
  · rfl

/-- Packing keeps a datum free of a minus sign. -/
theorem Unsigned.repack (h : Unsigned f) : Unsigned (unpack .binary64 (pack .binary64 f)) := by
  apply unsigned_unpack
  cases f with
  | notANumber => exact unpackSign_packComponents
  | infinity sign =>
    cases h
    exact unpackSign_packComponents
  | zero sign =>
    cases h
    exact unpackSign_packComponents
  | finite sign m e hm =>
    cases h
    unfold pack
    dsimp only
    split
    · exact unpackSign_packComponents
    · split <;> exact unpackSign_packComponents

/-- Bits without a sign stand for a positive double, unless for zero or no number. -/
theorem positive_unpack_packComponents
    (hnumber : exponent = -1#11 → mantissa = 0#52) (hzero : exponent = 0#11 → mantissa ≠ 0#52) :
    Positive (unpack .binary64 (packComponents .binary64 .positive exponent mantissa)) := by
  have hcases := unpack_cases (packComponents .binary64 .positive exponent mantissa)
  simp only [unpackSign_packComponents, unpackExponent_packComponents,
    unpackMantissa_packComponents, ofBitVec_toBitVec] at hcases
  rcases hcases with ⟨-, -, h⟩ | ⟨hmax, hbad, -⟩ | ⟨hmin, hbad, -⟩ | ⟨m, e, hm, he, hlt, h⟩
  · rw [h]
    trivial
  · exact absurd (hnumber hmax) hbad
  · exact absurd hbad (hzero hmin)
  · rw [h]
    exact ⟨he, hlt⟩

/-- A normal number: its exponent is neither the least nor the greatest. -/
theorem positive_unpack_normal {n : Nat} (hpos : 0 < n) (hlt : n < 2047) :
    Positive
      (unpack .binary64 (packComponents .binary64 .positive (BitVec.ofNat 11 n) mantissa)) := by
  have htoNat : (BitVec.ofNat 11 n).toNat = n := by
    rw [BitVec.toNat_ofNat]
    omega
  apply positive_unpack_packComponents
  · intro hmax
    simp [hmax] at htoNat
    omega
  · intro hmin
    simp [hmin] at htoNat
    omega

/-- A subnormal number: its mantissa fits without a leading bit. -/
theorem positive_unpack_subnormal (hm : 0 < m) (hlt : m < 2 ^ 52) :
    Positive (unpack .binary64 (packComponents .binary64 .positive 0#11 (BitVec.ofNat 52 m))) := by
  have htoNat : (BitVec.ofNat 52 m).toNat = m := by
    rw [BitVec.toNat_ofNat, Nat.mod_eq_of_lt hlt]
  apply positive_unpack_packComponents
  · intro hmax
    exact absurd hmax (by decide)
  · intro _ hzero
    simp [hzero] at htoNat
    omega

/-- Packing keeps a positive double positive, also where its exponent is too large. -/
theorem Positive.repack (h : Positive f) : Positive (unpack .binary64 (pack .binary64 f)) := by
  have hinfinity : Positive (unpack .binary64 (packedInfinity .binary64 .positive)) :=
    positive_unpack_packComponents (fun _ => rfl) (fun hzero => absurd hzero (by decide))
  match f, h with
  | .infinity .positive, _ => exact hinfinity
  | .finite .positive m e hm, ⟨he, hlt⟩ =>
    have hbias : Format.binary64.exponentBias = 1023 := rfl
    have hbits : Format.binary64.mantissaBits = 53 := rfl
    unfold pack
    dsimp only
    rw [hbias, hbits]
    split
    · exact hinfinity
    · split
      · exact positive_unpack_normal (by omega) (by omega)
      · have hlog : m.log2 < 53 := (Nat.log2_lt hm.ne').2 hlt
        exact positive_unpack_subnormal hm ((Nat.log2_lt hm.ne').1 (by omega))

end

/-! ## Rounding -/

theorem mantissa_shiftRight (em : ExtendedMantissa) : ∀ k : Nat,
    (em >>> k).mantissa = em.mantissa / 2 ^ k
  | 0 => by
    rw [Nat.pow_zero, Nat.div_one]
    rfl
  | k + 1 => by
    have hstep : em >>> (k + 1) = (em >>> k).shiftRightOne := rfl
    rw [hstep, ExtendedMantissa.shiftRightOne, mantissa_shiftRight em k, Nat.div_div_eq_div_mul,
      Nat.pow_succ]

theorem mantissa_le_roundedMantissa (em : ExtendedMantissa) : em.mantissa ≤ em.roundedMantissa := by
  unfold ExtendedMantissa.roundedMantissa Accuracy.roundToNearestEven
  split <;> omega

theorem targetExponent_eq : Format.binary64.targetExponent (Float.Model.totalExponent m e) =
    max ((m.log2 : Int) + 1 + e - 53) (-1074) := rfl

/-- A shift keeps the leading bit of a mantissa and leaves it no more bits than a double has. -/
theorem shift_pos (hm : 0 < m) (he : -1074 ≤ e) (acc : Accuracy) :
    let shifted := shiftToTargetExponent .binary64 m e acc
    0 < shifted.1.mantissa ∧ shifted.1.mantissa < 2 ^ 53 ∧ -1074 ≤ shifted.2 := by
  obtain ⟨k, hk⟩ : ∃ k, k = (max ((m.log2 : Int) + 1 + e - 53) (-1074) - e).toNat := ⟨_, rfl⟩
  have hmantissa : (ExtendedMantissa.ofMantissaAndAccuracy m acc).mantissa = m := by
    unfold ExtendedMantissa.ofMantissaAndAccuracy
    split <;> rfl
  have hle : 2 ^ m.log2 ≤ m := Nat.log2_self_le hm.ne'
  have hlt : m < 2 ^ (m.log2 + 1) := Nat.lt_log2_self
  intro shifted
  have hshifted : shifted.1.mantissa = m / 2 ^ k := by
    show (ExtendedMantissa.ofMantissaAndAccuracy m acc >>> (_ - e).toNat).mantissa = _
    rw [targetExponent_eq, ← hk, mantissa_shiftRight, hmantissa]
  rw [hshifted]
  refine ⟨Nat.div_pos ?_ (Nat.two_pow_pos k), Nat.div_lt_of_lt_mul ?_, ?_⟩
  · calc 2 ^ k ≤ 2 ^ m.log2 := Nat.pow_le_pow_right (by decide) (by omega)
      _ ≤ m := hle
  · calc m < 2 ^ (m.log2 + 1) := hlt
      _ ≤ 2 ^ (k + 53) := Nat.pow_le_pow_right (by decide) (by omega)
      _ = 2 ^ k * 2 ^ 53 := Nat.pow_add ..
  · show -1074 ≤ e + _
    omega

/-- Rounding leaves a positive number positive that is no less than the least double. -/
theorem positive_roundWithAccuracy (hm : 0 < m) (he : -1074 ≤ e) (acc : Accuracy) :
    Positive (roundWithAccuracy .binary64 .positive m e acc) := by
  obtain ⟨hpos, -, he'⟩ := shift_pos hm he acc
  unfold roundWithAccuracy
  dsimp only
  generalize shiftToTargetExponent .binary64 m e acc = first at hpos he' ⊢
  have hrounded := hpos.trans_le (mantissa_le_roundedMantissa first.1)
  obtain ⟨hpos', hlt, hexp⟩ := shift_pos hrounded he' .exact
  rw [dif_neg hpos'.ne']
  exact ⟨hexp, hlt⟩

theorem decreaseExponent_pos (hm : 0 < m) (target : Int) :
    0 < (decreaseExponent m e target).1 ∧ (decreaseExponent m e target).2 = min e target := by
  constructor
  · show 0 < m <<< _
    rw [Nat.shiftLeft_eq]
    exact Nat.mul_pos hm (Nat.two_pow_pos _)
  · show e - _ = _
    omega

theorem positive_round (hm : 0 < m) (he : -1074 ≤ e) :
    Positive (UnpackedFloat.round .binary64 .positive m e) := by
  unfold UnpackedFloat.round
  rw [targetExponent_eq]
  obtain ⟨hpos, hexp⟩ :=
    decreaseExponent_pos (e := e) hm (max ((m.log2 : Int) + 1 + e - 53) (-1074))
  exact positive_roundWithAccuracy hpos (by omega) .exact

/-- The sum of positive doubles is positive. -/
theorem Positive.add (h : Positive f) (h' : Positive f') :
    Positive (UnpackedFloat.add .binary64 f f') := by
  match f, f', h, h' with
  | .infinity .positive, .infinity .positive, _, _ => trivial
  | .infinity .positive, .finite .positive .., _, _ => trivial
  | .finite .positive .., .infinity .positive, _, _ => trivial
  | .finite .positive m e hm, .finite .positive m' e' hm', ⟨he, _⟩, ⟨he', _⟩ =>
    obtain ⟨hpos, -⟩ := decreaseExponent_pos (e := e) hm (min e e')
    obtain ⟨hpos', -⟩ := decreaseExponent_pos (e := e') hm' (min e e')
    obtain ⟨n, hn⟩ : ∃ n, n = (decreaseExponent m e (min e e')).1 +
      (decreaseExponent m' e' (min e e')).1 := ⟨_, rfl⟩
    have hsum :
        UnpackedFloat.add .binary64 (.finite .positive m e hm) (.finite .positive m' e' hm') =
          normalize .binary64 n (min e e') .positive := by
      rw [hn, Nat.cast_add]
      rfl
    have hcompare : compare (n : Int) 0 = .gt := Int.compare_eq_gt.2 (by omega)
    rw [hsum, UnpackedFloat.normalize, hcompare]
    exact positive_round (by omega) (by omega)

/-! ## Comparing -/

variable {x y : Float}

theorem lt_eq (x y : Float) :
    Scalar.lt x y = UnpackedFloat.lt x.toModel.unpack y.toModel.unpack := by
  show decide (x < y) = _
  rw [Bool.eq_iff_iff, decide_eq_true_iff]
  show Float.lt x y = true ↔ _
  show decide (x.toModel < y.toModel) = true ↔ _
  rw [decide_eq_true_iff]
  rfl

theorem unpack_zero : (Scalar.zero : Float).toModel.unpack = .zero .positive := by
  rfl

/-- A double is positive just if its datum is. -/
theorem zero_lt_iff : Scalar.lt Scalar.zero x = true ↔ Positive x.toModel.unpack := by
  rw [lt_eq, unpack_zero]
  change _ ↔ Positive (unpack .binary64 x.toModel.toBits.toBitVec)
  change UnpackedFloat.lt _ (unpack .binary64 x.toModel.toBits.toBitVec) = true ↔ _
  rcases unpack_cases x.toModel.toBits.toBitVec with
    ⟨-, -, h⟩ | ⟨-, -, h⟩ | ⟨-, -, h⟩ | ⟨m, e, hm, he, hlt, h⟩ <;> rw [h]
  · cases Sign.ofBitVec _ <;> simp [UnpackedFloat.lt, UnpackedFloat.compare, Positive]
  · simp [UnpackedFloat.lt, UnpackedFloat.compare, Positive]
  · simp [UnpackedFloat.lt, UnpackedFloat.compare, Positive]
  · cases Sign.ofBitVec _
    · simp [UnpackedFloat.lt, UnpackedFloat.compare, Positive]
    · simpa [UnpackedFloat.lt, UnpackedFloat.compare, Positive] using ⟨he, hlt⟩

/-! ## Sums -/

theorem zero_lt_add (hx : Scalar.lt Scalar.zero x = true) (hy : Scalar.lt Scalar.zero y = true) :
    Scalar.lt Scalar.zero (x + y) = true := by
  rw [zero_lt_iff] at hx hy ⊢
  exact (hx.add hy).repack

theorem zero_lt_zero_add (hx : Scalar.lt Scalar.zero x = true) :
    Scalar.lt Scalar.zero (Scalar.zero + x) = true := by
  rw [zero_lt_iff] at hx ⊢
  have hadd : ∀ f, Positive f → UnpackedFloat.add .binary64 (.zero .positive) f = f
    | .infinity .positive, _ => rfl
    | .finite .positive _ _ _, _ => rfl
  show Positive (unpack .binary64 (pack .binary64
    (UnpackedFloat.add .binary64 (Scalar.zero : Float).toModel.unpack x.toModel.unpack)))
  rw [unpack_zero, hadd _ hx]
  exact hx.repack

/-- The left-to-right sum of positive doubles, of which there is one, is positive. -/
theorem zero_lt_sum {xs : List Float} (hne : xs ≠ [])
    (h : ∀ x ∈ xs, Scalar.lt Scalar.zero x = true) :
    Scalar.lt Scalar.zero (Scalar.sum xs) = true := by
  have hfold : ∀ (xs : List Float) (acc : Float), (∀ x ∈ xs, Scalar.lt Scalar.zero x = true) →
      Scalar.lt Scalar.zero acc = true → Scalar.lt Scalar.zero (xs.foldl (· + ·) acc) = true := by
    intro xs
    induction xs with
    | nil => exact fun _ _ hacc => hacc
    | cons x xs ih =>
      intro acc hxs hacc
      obtain ⟨hx, hxs⟩ := List.forall_mem_cons.1 hxs
      exact ih (acc + x) hxs (zero_lt_add hacc hx)
  cases xs with
  | nil => exact absurd rfl hne
  | cons x xs =>
    obtain ⟨hx, hxs⟩ := List.forall_mem_cons.1 h
    exact hfold xs _ hxs (zero_lt_zero_add hx)

/-! ## Numbers made of random words -/

theorem Unsigned.roundWithAccuracy (acc : Accuracy) :
    Unsigned (roundWithAccuracy .binary64 .positive m e acc) := by
  unfold UnpackedFloat.roundWithAccuracy
  dsimp only
  split <;> rfl

theorem Unsigned.mul (h : Unsigned f) (h' : Unsigned f') :
    Unsigned (UnpackedFloat.mul .binary64 f f') := by
  cases f <;> cases f' <;> cases h <;> cases h' <;>
    first
    | rfl
    | trivial
    | exact Unsigned.roundWithAccuracy _

theorem Unsigned.div (h : Unsigned f) (h' : Unsigned f') :
    Unsigned (UnpackedFloat.div .binary64 f f') := by
  cases f <;> cases f' <;> cases h <;> cases h' <;>
    first
    | rfl
    | trivial
    | exact Unsigned.roundWithAccuracy _

theorem Unsigned.ofNat (n : Nat) : Unsigned (UnpackedFloat.ofNat .binary64 n) := by
  unfold UnpackedFloat.ofNat UnpackedFloat.ofInt UnpackedFloat.normalize
  split
  · rename_i hlt
    have hneg := Int.compare_eq_lt.1 hlt
    omega
  · rfl
  · exact Unsigned.roundWithAccuracy _

theorem Unsigned.ofScientific (n : Nat) (e : Int) :
    Unsigned (UnpackedFloat.ofScientific .binary64 n e) := by
  unfold UnpackedFloat.ofScientific
  split
  · rfl
  · split
    · rfl
    · split
      · rfl
      · split
        · exact Unsigned.mul rfl rfl
        · exact Unsigned.div rfl rfl

theorem unsigned_ofNat (n : Nat) : Unsigned (Scalar.ofNat n : Float).toModel.unpack := by
  have hone : Unsigned (unpack .binary64 (0x3FF0000000000000 : UInt64).toBitVec) :=
    unsigned_unpack _ rfl
  show Unsigned (Float.ofScientific n false 0).toModel.unpack
  unfold Float.ofScientific
  split
  · exact ((Unsigned.ofNat _).repack.mul hone.repack).repack
  · exact (Unsigned.ofScientific _ _).repack

theorem unsigned_unitOfWord (w : UInt64) :
    Unsigned (Scalar.unitOfWord w : Float).toModel.unpack := by
  have hdiv : ∀ m n : Nat, Unsigned (Scalar.ofNat m / Scalar.ofNat n : Float).toModel.unpack :=
    fun m n => ((unsigned_ofNat m).div (unsigned_ofNat n)).repack
  exact hdiv _ _

/-- A positive double that is not finite is the infinity above all others. -/
theorem unpack_eq_infinity (hpos : Scalar.lt Scalar.zero x = true)
    (hinf : Scalar.isFinite x = false) : x.toModel.unpack = .infinity .positive := by
  rw [zero_lt_iff] at hpos
  change x.toModel.unpack.isFinite = false at hinf
  match hdatum : x.toModel.unpack with
  | .infinity .positive => rfl
  | .infinity .negative => rw [hdatum] at hpos; cases hpos
  | .notANumber => rw [hdatum] at hpos; cases hpos
  | .zero _ => rw [hdatum] at hpos; cases hpos
  | .finite .. => rw [hdatum] at hinf; cases hinf

/-- The share of an infinite total that a random word stands for is not below any double. -/
theorem not_lt_unit_mul_infinite (w : UInt64) (hpos : Scalar.lt Scalar.zero x = true)
    (hinf : Scalar.isFinite x = false) (y : Float) :
    Scalar.lt (Scalar.unitOfWord w * x) y = false := by
  have hproduct : (Scalar.unitOfWord w * x).toModel.unpack = unpack .binary64 (pack .binary64
      (UnpackedFloat.mul .binary64 (Scalar.unitOfWord w : Float).toModel.unpack
        (.infinity .positive))) := by
    rw [← unpack_eq_infinity hpos hinf]
    rfl
  have hinfinity : unpack .binary64 (pack .binary64 (.infinity .positive)) = .infinity .positive :=
    rfl
  have hnan : unpack .binary64 (pack .binary64 .notANumber) = .notANumber := rfl
  have hcases : (Scalar.unitOfWord w * x).toModel.unpack = .infinity .positive ∨
      (Scalar.unitOfWord w * x).toModel.unpack = .notANumber := by
    rw [hproduct]
    have hunit := unsigned_unitOfWord w
    generalize (Scalar.unitOfWord w : Float).toModel.unpack = unit at hunit
    cases unit with
    | notANumber => exact .inr hnan
    | infinity sign => cases hunit; exact .inl hinfinity
    | zero sign => exact .inr hnan
    | finite sign m e hm => cases hunit; exact .inl hinfinity
  rw [lt_eq]
  rcases hcases with h | h
  · rw [h]
    rcases y.toModel.unpack with (_ | _) | _ | _ | _ <;> rfl
  · rw [h]
    rfl

end Doubles

end TopicModel
