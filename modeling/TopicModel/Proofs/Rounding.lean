import Mathlib
import TopicModel.Decimal.Rounding

/-!
# The error of rounding

How far `Binary.nearest` is off a quotient of integers, for quotients far above the least double.
The quotient that a significand is rounded from is at least `2 ^ 52` (`scaled_of_exponentFor`), and
so less than a `2 ^ 53`-th is lost (`lt_ceil_nearest`, `floor_nearest_near`).

Below `2 ^ 53` the integers are among the doubles, and no quotient is rounded past one
(`ceil_nearest_le`). With the bound on what is lost this makes the next integer exact up to
`2 ^ 53`: `ceil_nearest`, `floor_nearest_eq`.
-/

namespace TopicModel

namespace Decimal

variable {tie : Tie} {num den m n q : Nat}

theorem div_le_divNearest (tie : Tie) (num den : Nat) : num / den ≤ divNearest tie num den := by
  unfold divNearest
  dsimp only
  split
  · omega
  · split
    · exact Nat.le_refl _
    · cases tie <;> simp

theorem divNearest_one (tie : Tie) (num : Nat) : divNearest tie num 1 = num := by
  simp [divNearest, Nat.mod_one]

/-- A quotient is not rounded past an integer. -/
theorem divNearest_le (hden : 0 < den) (h : num ≤ m * den) : divNearest tie num den ≤ m := by
  obtain ⟨-, hnear⟩ := divNearest_near tie num den hden
  have hmul : (2 * divNearest tie num den) * den ≤ (2 * m + 1) * den := by
    rw [Nat.mul_assoc, Nat.add_mul, Nat.mul_assoc, Nat.one_mul]
    omega
  have hle := Nat.le_of_mul_le_mul_right hmul hden
  omega

namespace Binary

/-! ## Exponents -/

theorem minExponent_lt_exponentFor (hden : 0 < den) (h : den ≤ 2 ^ 65) :
    minExponent < exponentFor num den := by
  have hlog : Nat.log2 den < 66 := (Nat.log2_lt hden.ne').2 (by omega)
  have hmin : minExponent = -1074 := rfl
  rw [exponentFor]
  split <;> omega

/-- Above the least exponent, the quotient that a significand is rounded from has 53 bits. -/
theorem scaled_of_exponentFor (hn : 0 < num) (h : minExponent < exponentFor num den) :
    2 ^ 52 * (den * 2 ^ (exponentFor num den).toNat) ≤
      num * 2 ^ (-exponentFor num den).toNat := by
  -- the exponent is the guess where that has been tried, and one below the guess where it failed
  have hcase : exponentFor num den ≤ (Nat.log2 num : Int) - Nat.log2 den - 53 ∨
      den <<< ((exponentFor num den).toNat + 52) ≤ num <<< (-exponentFor num den).toNat := by
    rw [exponentFor] at h ⊢
    split at h
    · exact .inl (by omega)
    · rename_i hfits
      rw [if_neg hfits, max_eq_right (by omega)]
      exact .inr (Nat.not_lt.1 hfits)
  generalize exponentFor num den = e at hcase ⊢
  rcases hcase with he | hfits
  · have hnum : 2 ^ Nat.log2 num ≤ num := Nat.log2_self_le hn.ne'
    have hden : den < 2 ^ (Nat.log2 den + 1) := Nat.lt_log2_self
    calc 2 ^ 52 * (den * 2 ^ e.toNat) ≤ 2 ^ 52 * (2 ^ (Nat.log2 den + 1) * 2 ^ e.toNat) :=
          Nat.mul_le_mul_left _ (Nat.mul_le_mul_right _ hden.le)
      _ = 2 ^ (52 + (Nat.log2 den + 1 + e.toNat)) := by rw [← Nat.pow_add, ← Nat.pow_add]
      _ ≤ 2 ^ (Nat.log2 num + (-e).toNat) := Nat.pow_le_pow_right (by decide) (by omega)
      _ = 2 ^ Nat.log2 num * 2 ^ (-e).toNat := Nat.pow_add ..
      _ ≤ num * 2 ^ (-e).toNat := Nat.mul_le_mul_right _ hnum
  · rw [Nat.shiftLeft_eq, Nat.shiftLeft_eq, Nat.pow_add, ← Nat.mul_assoc, Nat.mul_comm] at hfits
    exact hfits

/-- A quotient below `2 ^ 53` is rounded on a grid at least as fine as the integers. -/
theorem exponentFor_nonpos (h : num < 2 ^ 53 * den) : exponentFor num den ≤ 0 := by
  rcases Nat.eq_zero_or_pos num with rfl | hn
  · have hmin : minExponent = -1074 := rfl
    rw [exponentFor, Nat.log2_zero]
    split <;> omega
  · by_contra hpos
    have hscaled := scaled_of_exponentFor hn (lt_trans (by decide) (not_le.1 hpos))
    rw [show (-exponentFor num den).toNat = 0 by omega, Nat.pow_zero, Nat.mul_one] at hscaled
    have htwo : 2 ^ 1 ≤ 2 ^ (exponentFor num den).toNat :=
      Nat.pow_le_pow_right (by decide) (by omega)
    have hden := Nat.mul_le_mul_left den htwo
    omega

/-! ## Significands and integers -/

theorem exponent_nearest : (nearest num den).exponent = exponentFor num den := rfl

theorem significand_nearest : (nearest num den).significand =
    divNearest .toEven (num * 2 ^ (-exponentFor num den).toNat)
      (den * 2 ^ (exponentFor num den).toNat) := by
  rw [← Nat.shiftLeft_eq, ← Nat.shiftLeft_eq, nearest]

theorem floor_eq (x : Binary) :
    x.floor = x.significand * 2 ^ x.exponent.toNat / 2 ^ (-x.exponent).toNat := by
  rw [floor, Nat.shiftRight_eq_div_pow, Nat.shiftLeft_eq]

theorem ceil_eq (x : Binary) : x.ceil = (x.significand * 2 ^ x.exponent.toNat +
    (2 ^ (-x.exponent).toNat - 1)) / 2 ^ (-x.exponent).toNat := by
  rw [ceil, Nat.shiftRight_eq_div_pow, Nat.shiftLeft_eq, Nat.one_shiftLeft]

theorem le_ceil_mul (x : Binary) :
    x.significand * 2 ^ x.exponent.toNat ≤ x.ceil * 2 ^ (-x.exponent).toNat := by
  have hpos := Nat.two_pow_pos (-x.exponent).toNat
  rw [ceil_eq]
  generalize x.significand * 2 ^ x.exponent.toNat = num at hpos ⊢
  generalize 2 ^ (-x.exponent).toNat = den at hpos ⊢
  have hmod := Nat.div_add_mod (num + (den - 1)) den
  have hlt := Nat.mod_lt (num + (den - 1)) hpos
  rw [Nat.mul_comm]
  omega

/-! ## Quotients -/

/-- Rounding takes less than a `2 ^ 53`-th from a quotient, even before the next integer is
taken. -/
theorem lt_ceil_nearest (hn : 0 < num) (hd : 0 < den) (h : den ≤ 2 ^ 65) :
    (2 ^ 53 - 1) * num < 2 ^ 53 * ((nearest num den).ceil * den) := by
  have hexp := scaled_of_exponentFor hn (minExponent_lt_exponentFor hd h)
  have hceil := le_ceil_mul (nearest num den)
  rw [significand_nearest, exponent_nearest] at hceil
  generalize exponentFor num den = e at hexp hceil
  have hunit : 0 < den * 2 ^ e.toNat := Nat.mul_pos hd (Nat.two_pow_pos _)
  have hscaled : 0 < num * 2 ^ (-e).toNat := Nat.mul_pos hn (Nat.two_pow_pos _)
  have hfloor := div_le_divNearest .toEven (num * 2 ^ (-e).toNat) (den * 2 ^ e.toNat)
  obtain ⟨hnear, -⟩ := divNearest_near .toEven (num * 2 ^ (-e).toNat) (den * 2 ^ e.toNat) hunit
  generalize divNearest .toEven (num * 2 ^ (-e).toNat) (den * 2 ^ e.toNat) = s at *
  have hs : 2 ^ 52 ≤ s := Nat.le_trans ((Nat.le_div_iff_mul_le hunit).2 hexp) hfloor
  have hsig : 2 ^ 52 * (den * 2 ^ e.toNat) ≤ s * (den * 2 ^ e.toNat) := Nat.mul_le_mul_right _ hs
  have hvalue : s * (den * 2 ^ e.toNat) ≤ (nearest num den).ceil * den * 2 ^ (-e).toNat :=
    calc s * (den * 2 ^ e.toNat) = s * 2 ^ e.toNat * den := by ring
      _ ≤ (nearest num den).ceil * 2 ^ (-e).toNat * den := Nat.mul_le_mul_right _ hceil
      _ = (nearest num den).ceil * den * 2 ^ (-e).toNat := by ring
  refine Nat.lt_of_mul_lt_mul_right (a := 2 ^ (-e).toNat) ?_
  rw [Nat.mul_assoc, Nat.mul_assoc (2 ^ 53)]
  omega

/-- On a grid at least as fine as the integers, no quotient is rounded past an integer. -/
theorem ceil_nearest_le (hd : 0 < den) (he : exponentFor num den ≤ 0) (h : num ≤ q * den) :
    (nearest num den).ceil ≤ q := by
  have hpos := Nat.two_pow_pos (-exponentFor num den).toNat
  have hsig : divNearest .toEven (num * 2 ^ (-exponentFor num den).toNat) den ≤
      q * 2 ^ (-exponentFor num den).toNat := by
    refine divNearest_le hd ?_
    calc num * 2 ^ (-exponentFor num den).toNat
        ≤ q * den * 2 ^ (-exponentFor num den).toNat := Nat.mul_le_mul_right _ h
      _ = q * 2 ^ (-exponentFor num den).toNat * den := Nat.mul_right_comm ..
  rw [ceil_eq, significand_nearest, exponent_nearest, Int.toNat_of_nonpos he, Nat.pow_zero,
    Nat.mul_one, Nat.mul_one]
  generalize 2 ^ (-exponentFor num den).toNat = scale at *
  refine Nat.le_of_lt_succ (Nat.div_lt_of_lt_mul ?_)
  rw [Nat.mul_succ, Nat.mul_comm scale]
  omega

/-- Up to `2 ^ 53`, the next integer is that of the exact quotient. -/
theorem ceil_nearest (hn : n ≤ 2 ^ 53) (hd : 0 < den) (h : den ≤ 2 ^ 65) :
    (nearest n den).ceil = n ⌈/⌉ den := by
  apply Nat.le_antisymm
  · rcases Nat.lt_or_ge n (2 ^ 53 * den) with hbelow | htop
    · refine ceil_nearest_le hd (exponentFor_nonpos hbelow) ?_
      rw [Nat.mul_comm]
      exact le_smul_ceilDiv hd
    · -- the one such quotient whose grid is coarser than the integers
      obtain ⟨rfl, rfl⟩ : n = 2 ^ 53 ∧ den = 1 := by omega
      decide +kernel
  · rw [ceilDiv_le_iff_le_mul hd, Nat.mul_comm]
    rcases Nat.eq_zero_or_pos n with rfl | hpos
    · exact Nat.zero_le _
    · have hlow := lt_ceil_nearest hpos hd h
      omega

/-! ## Integers -/

/-- The double nearest to an integer is off by at most a `2 ^ 53`-th of it. -/
theorem floor_nearest_near (n : Nat) : 2 ^ 53 * n ≤ 2 ^ 53 * (nearest n 1).floor + n ∧
    2 ^ 53 * (nearest n 1).floor ≤ 2 ^ 53 * n + n := by
  rw [floor_eq, significand_nearest, exponent_nearest, Nat.one_mul]
  rcases le_or_gt (exponentFor n 1) 0 with he | he
  · rw [Int.toNat_of_nonpos he, Nat.pow_zero, divNearest_one, Nat.mul_one,
      Nat.mul_div_cancel _ (Nat.two_pow_pos _)]
    omega
  · have hn : 0 < n := by
      rcases Nat.eq_zero_or_pos n with rfl | hn
      · exact absurd he (by decide)
      · exact hn
    have hscaled := scaled_of_exponentFor hn (lt_trans (by decide) he)
    have hnear := divNearest_near .toEven n (2 ^ (exponentFor n 1).toNat) (Nat.two_pow_pos _)
    rw [show (-exponentFor n 1).toNat = 0 by omega, Nat.pow_zero, Nat.mul_one] at hscaled ⊢
    rw [Nat.div_one]
    omega

/-- Up to `2 ^ 53`, integers are doubles. -/
theorem floor_nearest_eq (h : n ≤ 2 ^ 53) : (nearest n 1).floor = n := by
  rcases Nat.lt_or_eq_of_le h with hlt | rfl
  · have hnear := floor_nearest_near n
    omega
  · decide +kernel

end Binary

end Decimal

end TopicModel
