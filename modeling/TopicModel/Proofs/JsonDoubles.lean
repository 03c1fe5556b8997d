import Mathlib
import TopicModel.Proofs.JsonNumbers
import TopicModel.Proofs.JsonTexts
import TopicModel.Proofs.Rounding

/-!
# Literals of doubles

A double lies between two powers of ten (`Binary.magnitude_le`), so that on the grids searched for
its shortest digits it is at least one unit, and so are the digits found
(`Binary.digits_shortest_ne_zero`). By position or with an exponent, they make a literal of JSON:
`Number.sound_ofFloat`.

Whether the literal is read as the same double is another matter, `Value.ReadsBack`: the reader
rounds more than once, and beyond fifteen digits it may end at a neighbour.
-/

namespace TopicModel

namespace Decimal

/-! ## The size of a double -/

theorem pow_toNat {b : ℚ} (hb : b ≠ 0) (a : ℤ) : b ^ a.toNat = b ^ a * b ^ (-a).toNat := by
  rcases le_total 0 a with h | h
  · rw [show (-a).toNat = 0 by omega, pow_zero, mul_one, ← zpow_natCast, Int.toNat_of_nonneg h]
  · rw [show a.toNat = 0 by omega, pow_zero, ← zpow_natCast, Int.toNat_of_nonneg (by omega),
      ← zpow_add₀ hb]
    simp

namespace Binary

variable {x : Binary}

/-- The number that a double is. -/
def toRat (x : Binary) : ℚ := x.significand * 2 ^ x.exponent

theorem minExponent_le_ofBits (bits : UInt64) : minExponent ≤ (ofBits bits).exponent := by
  unfold ofBits
  dsimp only
  split
  · exact le_refl _
  · show minExponent ≤ minExponent + _
    omega

theorem unit_pos (x : Binary) (e : ℤ) : 0 < (x.onGrid e).unit := by
  show 0 < Nat.pow 10 e.toNat <<< _
  rw [Nat.shiftLeft_eq]
  exact Nat.mul_pos (Nat.pow_pos (by decide)) (Nat.pow_pos (by decide))

/-- The double in units of a grid. -/
theorem onGrid_eq (x : Binary) (e : ℤ) :
    ((x.onGrid e).value : ℚ) = x.toRat * 10 ^ (-e) * (x.onGrid e).unit := by
  have hten := pow_toNat (b := 10) (by norm_num) (-e)
  have htwo := pow_toNat (b := 2) (by norm_num) (x.exponent - 2)
  have hfour : (4 : ℚ) * 2 ^ (x.exponent - 2) = 2 ^ x.exponent := by
    rw [zpow_sub₀ (by norm_num)]
    norm_num
    ring
  rw [neg_neg] at hten
  show ((4 * x.significand * (Nat.pow 10 (-e).toNat <<< (x.exponent - 2).toNat) : ℕ) : ℚ) =
    x.significand * 2 ^ x.exponent * 10 ^ (-e) *
      ((Nat.pow 10 e.toNat <<< (-(x.exponent - 2)).toNat : ℕ) : ℚ)
  rw [Nat.shiftLeft_eq, Nat.shiftLeft_eq, ← hfour]
  simp only [Nat.pow_eq, Nat.cast_mul, Nat.cast_pow, Nat.cast_ofNat, hten, htwo]
  ring

theorem pow_length_toDigits_le {n : ℕ} (h : 1 ≤ n) :
    10 ^ ((Nat.toDigits 10 n).length - 1) ≤ n := by
  rcases Nat.eq_zero_or_pos ((Nat.toDigits 10 n).length - 1) with hzero | hlen
  · rw [hzero, pow_zero]
    exact h
  · by_contra hlt
    have hle := (Nat.length_toDigits_le_iff (by decide) hlen).2 (Nat.lt_of_not_le hlt)
    omega

/-- A decimal place outweighs three binary ones. -/
theorem one_le_scaled {m places : ℕ} {e : ℤ} (hm : m ≠ 0) (he : -(3 * places : ℤ) ≤ e) :
    1 ≤ m * 10 ^ places * 2 ^ e.toNat / 2 ^ (-e).toNat := by
  apply Nat.div_pos _ (Nat.pow_pos (by decide))
  calc 2 ^ (-e).toNat ≤ 2 ^ (3 * places) := Nat.pow_le_pow_right (by decide) (by omega)
    _ = (2 ^ 3) ^ places := Nat.pow_mul 2 3 places
    _ ≤ 10 ^ places := Nat.pow_le_pow_left (by decide) places
    _ ≤ m * 10 ^ places := Nat.le_mul_of_pos_left _ (Nat.pos_of_ne_zero hm)
    _ ≤ m * 10 ^ places * 2 ^ e.toNat := Nat.le_mul_of_pos_right _ (Nat.pow_pos (by decide))

theorem scaled_le (m places : ℕ) (e : ℤ) :
    ((m * 10 ^ places * 2 ^ e.toNat / 2 ^ (-e).toNat : ℕ) : ℚ) ≤ m * 2 ^ e * 10 ^ places := by
  have htwo := pow_toNat (b := 2) (by norm_num) e
  refine Nat.cast_div_le.trans ?_
  rw [div_le_iff₀ (by positivity)]
  push_cast
  rw [htwo]
  apply le_of_eq
  ring

/-- A double is at least the power of ten below its magnitude. -/
theorem magnitude_le (hx : x.significand ≠ 0) (he : minExponent ≤ x.exponent) :
    (10 : ℚ) ^ (x.magnitude - 1) ≤ x.toRat := by
  unfold magnitude
  extract_lets places scaled
  have hplaces : places = 400 := rfl
  have hscaled : scaled =
    ((x.significand * Nat.pow 10 places) <<< x.exponent.toNat) >>> (-x.exponent).toNat := rfl
  clear_value scaled places
  simp only [Nat.shiftLeft_eq, Nat.shiftRight_eq_div_pow, Nat.pow_eq] at hscaled
  -- four hundred places are more than the least exponent takes away
  have hpos : 1 ≤ scaled := by
    have hmin : minExponent = -1074 := rfl
    rw [hscaled]
    exact one_le_scaled hx (by omega)
  have hlength := Nat.length_toDigits_pos (b := 10) (n := scaled)
  have hshift : (10 : ℚ) ^ (((Nat.toDigits 10 scaled).length : ℤ) - places - 1) * 10 ^ places =
      ((10 ^ ((Nat.toDigits 10 scaled).length - 1) : ℕ) : ℚ) := by
    rw [Nat.cast_pow, ← zpow_natCast, ← zpow_natCast, Nat.cast_ofNat, ← zpow_add₀ (by norm_num)]
    congr 1
    omega
  refine le_of_mul_le_mul_right ?_ (by positivity : (0 : ℚ) < 10 ^ places)
  calc (10 : ℚ) ^ (((Nat.toDigits 10 scaled).length : ℤ) - places - 1) * 10 ^ places
      = ((10 ^ ((Nat.toDigits 10 scaled).length - 1) : ℕ) : ℚ) := hshift
    _ ≤ scaled := by exact_mod_cast pow_length_toDigits_le hpos
    _ ≤ x.toRat * 10 ^ places := hscaled ▸ scaled_le x.significand places x.exponent

/-- On the grid of `n` digits a double is at least one unit. -/
theorem unit_le_value (hx : x.significand ≠ 0) (he : minExponent ≤ x.exponent) {n : ℕ}
    (hn : 1 ≤ n) : (x.onGrid (x.magnitude - n)).unit ≤ (x.onGrid (x.magnitude - n)).value := by
  have hunit : (0 : ℚ) ≤ (x.onGrid (x.magnitude - n)).unit := Nat.cast_nonneg _
  have hone : (1 : ℚ) ≤ x.toRat * 10 ^ (-(x.magnitude - n)) := by
    calc (1 : ℚ) ≤ 10 ^ ((n : ℤ) - 1) := one_le_zpow₀ (by norm_num) (by omega)
      _ = 10 ^ (x.magnitude - 1) * 10 ^ (-(x.magnitude - n)) := by
        rw [← zpow_add₀ (by norm_num)]
        congr 1
        ring
      _ ≤ x.toRat * 10 ^ (-(x.magnitude - n)) :=
        mul_le_mul_of_nonneg_right (magnitude_le hx he) (by positivity)
  have hvalue : ((x.onGrid (x.magnitude - n)).unit : ℚ) ≤ (x.onGrid (x.magnitude - n)).value := by
    rw [onGrid_eq]
    exact le_mul_of_one_le_left hunit hone
  exact_mod_cast hvalue

end Binary

/-! ## Shortest digits -/

theorem digits_strip_ne_zero : ∀ {fuel : ℕ} {d : Numeral}, d.digits ≠ 0 →
    (d.strip fuel).digits ≠ 0
  | 0, _, h => h
  | fuel + 1, d, h => by
    rw [Numeral.strip]
    split
    · rename_i hzero
      apply digits_strip_ne_zero
      show d.digits / 10 ≠ 0
      omega
    · exact h

namespace Binary

variable {x : Binary}

theorem digits_nearestHit_ne_zero (hx : x.significand ≠ 0) (he : minExponent ≤ x.exponent) {n : ℕ}
    (hn : 1 ≤ n) {d : Numeral} {tie : Tie}
    (h : x.nearestHit? tie (x.magnitude - n) = some d) : d.digits ≠ 0 := by
  have hone : 1 ≤ (x.onGrid (x.magnitude - n)).value / (x.onGrid (x.magnitude - n)).unit :=
    Nat.div_pos (unit_le_value hx he hn) (unit_pos _ _)
  unfold nearestHit? at h
  dsimp only at h
  split at h
  · cases h
    have hle := div_le_divNearest tie (x.onGrid (x.magnitude - n)).value
      (x.onGrid (x.magnitude - n)).unit
    show divNearest _ _ _ ≠ 0
    omega
  · cases h
    show _ / _ ≠ 0
    omega
  · cases h
    exact Nat.succ_ne_zero _
  · cases h

/-- The shortest digits of a double other than zero are not zero. -/
theorem digits_shortest_ne_zero (hx : x.significand ≠ 0) (he : minExponent ≤ x.exponent)
    (tie : Tie) : (x.shortest tie).digits ≠ 0 := by
  rw [shortest, if_neg hx]
  apply digits_strip_ne_zero
  cases hhit : (List.range' 1 17).findSome? fun n : ℕ => x.nearestHit? tie (x.magnitude - n) with
  | some d =>
    obtain ⟨n, hn, hd⟩ := List.exists_of_findSome?_eq_some hhit
    exact digits_nearestHit_ne_zero hx he (List.mem_range'_1.1 hn).1 hd
  | none =>
    have hone := Nat.div_pos (unit_le_value hx he (n := 17) (by decide)) (unit_pos _ _)
    have hle := div_le_divNearest .toEven (x.onGrid (x.magnitude - 17)).value
      (x.onGrid (x.magnitude - 17)).unit
    rw [Option.getD_none]
    unfold rounded
    dsimp only
    rw [if_neg hx]
    change divNearest .toEven (x.onGrid (x.magnitude - ((17 : ℕ) : ℤ))).value
      (x.onGrid (x.magnitude - ((17 : ℕ) : ℤ))).unit ≠ 0
    push_cast
    push_cast at hone
    omega

end Binary

end Decimal

/-! ## Literals -/

namespace Json.Number

open Decimal

theorem forall_isDigit_replicate (n : ℕ) : ∀ c ∈ List.replicate n '0', c.isDigit = true := by
  intro c hc
  rw [List.eq_of_mem_replicate hc]
  rfl

/-- Digits by position: some before the point, and no zero in front of others. -/
theorem places_sound {d : Numeral} (h : d.digits = 0 → d.exponent ≤ 0) :
    d.places.1 ≠ [] ∧ (∀ c ∈ d.places.1, c.isDigit = true) ∧
      (d.places.1.head? = some '0' → d.places.1 = ['0']) ∧
      ∀ c ∈ d.places.2, c.isDigit = true := by
  have hdigits := isDigit_toDigits d.digits
  have hne : Nat.toDigits 10 d.digits ≠ [] := Nat.toDigits_ne_nil
  unfold Numeral.places
  dsimp only
  split
  · rename_i hexponent
    refine ⟨by simp [hne], List.forall_mem_append.2 ⟨hdigits, forall_isDigit_replicate _⟩, ?_,
      List.forall_mem_nil _⟩
    intro hhead
    rw [List.head?_append_of_ne_nil _ hne] at hhead
    have hzero := toDigits_of_leading_zero hhead
    have hvalue : d.digits = 0 := by
      rw [← ofDigits_toDigits d.digits, hzero]
      rfl
    have hnone : d.exponent.toNat = 0 := by
      have hle := h hvalue
      omega
    show Nat.toDigits 10 d.digits ++ List.replicate d.exponent.toNat '0' = ['0']
    rw [hzero, hnone]
    rfl
  · rename_i hexponent
    split
    · rename_i hlt
      rw [List.splitAt_eq]
      have hlen : 0 < (Nat.toDigits 10 d.digits).length - (-d.exponent).toNat := by omega
      refine ⟨?_, fun c hc => hdigits c (List.mem_of_mem_take hc), ?_,
        fun c hc => hdigits c (List.mem_of_mem_drop hc)⟩
      · rw [ne_eq, List.take_eq_nil_iff, not_or]
        exact ⟨by omega, hne⟩
      · intro hhead
        rw [List.head?_take, if_neg (by omega)] at hhead
        rw [toDigits_of_leading_zero hhead] at hlt
        simp only [List.length_singleton] at hlt
        omega
    · exact ⟨by simp, by simp, by simp,
        List.forall_mem_append.2 ⟨forall_isDigit_replicate _, hdigits⟩⟩

/-- The literal of a double is one of JSON. -/
theorem sound_ofFloat (x : Float) : (ofFloat x).Sound := by
  obtain ⟨d, hd⟩ : ∃ d, d = (Decimal.magnitude x).shortest .toEven := ⟨_, rfl⟩
  have hzero : d.digits = 0 → d.exponent ≤ 0 := by
    intro hdigits
    by_cases hx : (Decimal.magnitude x).significand = 0
    · rw [hd, Binary.shortest, if_pos hx]
    · rw [hd] at hdigits
      exact absurd hdigits
        (Binary.digits_shortest_ne_zero hx (Binary.minExponent_le_ofBits _) _)
  have hdigits := isDigit_toDigits d.digits
  unfold ofFloat
  dsimp only
  rw [← hd]
  split
  · obtain ⟨hne, hwhole, hleading, hfraction⟩ := places_sound hzero
    refine ⟨hne, hwhole, hleading, ?_⟩
    show ∀ c ∈ (if d.places.2.isEmpty then ['0'] else d.places.2), c.isDigit = true
    split
    · simp
    · exact hfraction
  · refine ⟨?_, fun c hc => hdigits c (List.mem_of_mem_take hc), ?_,
      fun c hc => hdigits c (List.mem_of_mem_drop hc)⟩
    · show (Nat.toDigits 10 d.digits).take 1 ≠ []
      rw [ne_eq, List.take_eq_nil_iff]
      simp [Nat.toDigits_ne_nil]
    · show ((Nat.toDigits 10 d.digits).take 1).head? = some '0' →
        (Nat.toDigits 10 d.digits).take 1 = ['0']
      cases Nat.toDigits 10 d.digits <;> simp

end Json.Number

namespace Json.Value

theorem plain_ofFloat (x : Float) : (ofFloat x).Plain := by
  unfold ofFloat
  split
  · exact List.forall_mem_singleton.2 (Number.sound_ofFloat x)
  · exact List.forall_mem_singleton.2 trivial

/-- The text of a double is read as the same double. -/
def ReadsBack (x : Float) : Prop := (ofFloat x).double? = some x

instance (x : Float) : Decidable (ReadsBack x) := inferInstanceAs (Decidable (_ = _))

/-- What is not finite has no text that could be read. -/
theorem ReadsBack.isFinite {x : Float} (h : ReadsBack x) : x.isFinite = true := by
  by_contra hx
  rw [ReadsBack, ofFloat, if_neg hx] at h
  cases h

/-- Fifty by three reads back. -/
example : ReadsBack (Float.ofBits 0x4030aaaaaaaaaaab) := by decide +kernel

/-- Fifty by twenty-seven does not: it has seventeen digits, and the reader rounds twice. -/
example : ¬ ReadsBack (Float.ofBits 0x3ffda12f684bda13) := by decide +kernel

end Json.Value

end TopicModel
