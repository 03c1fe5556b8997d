import Mathlib
import TopicModel.Proofs.Scoring

/-!
# Draws in proportion to weights

With the reals as scalars, the running sums of a list of weights (`cumulative`) cut the numbers
below the total into one interval for each weight, as long as the weight. `inverseCdf` gives the
index of the interval that a number lies in. It looks for the first running sum above the number
(`firstAbove?_some`), so that the number is not below the sums before it, whatever the signs of the
weights (`cumulative_inverseCdf_le`, `lt_cumulative_inverseCdf`); that no other interval holds the
number takes weights that are not negative (`index_unique`). A uniform number below the total
therefore draws every index in exact proportion to its weight (`inverseCdf_proportional`).
-/

namespace TopicModel

/-- The sum of the weights before an index. -/
noncomputable def cumulative (weights : List ℝ) (k : Nat) : ℝ := (weights.take k).sum

section
variable {weights : List ℝ} {u w : ℝ} {k l : Nat}

/-! ## Running sums -/

@[simp] theorem cumulative_zero (weights : List ℝ) : cumulative weights 0 = 0 := by
  rw [cumulative, List.take_zero, List.sum_nil]

theorem cumulative_cons (w : ℝ) (weights : List ℝ) (k : Nat) :
    cumulative (w :: weights) (k + 1) = w + cumulative weights k := by
  rw [cumulative, List.take_succ_cons, List.sum_cons, cumulative]

theorem cumulative_succ (h : weights[k]? = some w) :
    cumulative weights (k + 1) = cumulative weights k + w := by
  rw [cumulative, List.take_add_one, h, Option.toList_some, List.sum_append, List.sum_singleton,
    cumulative]

theorem cumulative_of_length_le (h : weights.length ≤ k) : cumulative weights k = weights.sum := by
  rw [cumulative, List.take_of_length_le h]

/-- Weights that are not negative do not lower their running sum. -/
theorem cumulative_mono (h : ∀ w ∈ weights, 0 ≤ w) : Monotone (cumulative weights) := by
  refine monotone_nat_of_le_succ fun k => ?_
  cases hk : weights[k]? with
  | none =>
    have hlen := List.getElem?_eq_none_iff.1 hk
    rw [cumulative_of_length_le hlen, cumulative_of_length_le (Nat.le_succ_of_le hlen)]
  | some w =>
    rw [cumulative_succ hk]
    exact le_add_of_nonneg_right (h w (List.mem_of_getElem? hk))

/-! ## The first running sum above a number -/

theorem firstAbove?_none : ∀ {weights : List ℝ} {acc : ℝ} {k : Nat},
    firstAbove? u weights acc k = none →
    ∀ j < weights.length, acc + cumulative weights (j + 1) ≤ u
  | [], _, _, _, j, hj => absurd hj (Nat.not_lt_zero j)
  | w :: ws, acc, k, h, j, hj => by
    rw [firstAbove?] at h
    by_cases hu : u < acc + w
    · simp [Scalar.lt, hu] at h
    · simp only [Scalar.lt, hu, decide_false, Bool.false_eq_true, if_false] at h
      rw [cumulative_cons, ← add_assoc]
      cases j with
      | zero => rw [cumulative_zero, add_zero]; exact not_lt.1 hu
      | succ j => exact firstAbove?_none h j (Nat.lt_of_succ_lt_succ hj)

/-- The running sum at the index is above the number, and no running sum before it is. -/
theorem firstAbove?_some : ∀ {weights : List ℝ} {acc : ℝ} {k i : Nat},
    firstAbove? u weights acc k = some i → ∃ j < weights.length, i = k + j ∧
      u < acc + cumulative weights (j + 1) ∧ ∀ l < j, acc + cumulative weights (l + 1) ≤ u
  | [], _, _, _, h => by cases h
  | w :: ws, acc, k, i, h => by
    rw [firstAbove?] at h
    by_cases hu : u < acc + w
    · simp only [Scalar.lt, hu, decide_true, if_true, Option.some.injEq] at h
      refine ⟨0, Nat.succ_pos _, h.symm, ?_, fun l hl => absurd hl (Nat.not_lt_zero l)⟩
      rwa [cumulative_cons, cumulative_zero, add_zero]
    · simp only [Scalar.lt, hu, decide_false, Bool.false_eq_true, if_false] at h
      obtain ⟨j, hj, rfl, habove, hbelow⟩ := firstAbove?_some h
      refine ⟨j + 1, Nat.succ_lt_succ hj, by omega, ?_, fun l hl => ?_⟩
      · rwa [cumulative_cons, ← add_assoc]
      · rw [cumulative_cons, ← add_assoc]
        cases l with
        | zero => rw [cumulative_zero, add_zero]; exact not_lt.1 hu
        | succ l => exact hbelow l (Nat.lt_of_succ_lt_succ hl)

/-- The index of a number is that of the first running sum above it, or else the last one. -/
theorem inverseCdf_cases (weights : List ℝ) (u : ℝ) :
    (inverseCdf weights u = weights.length - 1 ∧
      ∀ j < weights.length, cumulative weights (j + 1) ≤ u) ∨
    inverseCdf weights u < weights.length ∧ u < cumulative weights (inverseCdf weights u + 1) ∧
      ∀ l < inverseCdf weights u, cumulative weights (l + 1) ≤ u := by
  rw [inverseCdf]
  cases h : firstAbove? u weights Scalar.zero 0 with
  | none =>
    have hall := firstAbove?_none h
    simp only [zero_eq, zero_add] at hall
    exact .inl ⟨rfl, hall⟩
  | some i =>
    obtain ⟨j, hj, rfl, habove, hbelow⟩ := firstAbove?_some h
    simp only [zero_eq, zero_add] at habove hbelow
    rw [Option.getD_some, Nat.zero_add]
    exact .inr ⟨hj, habove, hbelow⟩

/-! ## The index of a number -/

theorem inverseCdf_le (hk : k < weights.length) (h : u < cumulative weights (k + 1)) :
    inverseCdf weights u ≤ k := by
  rcases inverseCdf_cases weights u with ⟨-, hall⟩ | ⟨-, -, hbelow⟩
  · exact absurd (hall k hk) (not_le.2 h)
  · by_contra hlt
    exact absurd (hbelow k (Nat.lt_of_not_le hlt)) (not_le.2 h)

/-- A number that no running sum exceeds has the last index. -/
theorem inverseCdf_of_sum_le (hnonneg : ∀ w ∈ weights, 0 ≤ w) (h : weights.sum ≤ u) :
    inverseCdf weights u = weights.length - 1 := by
  rcases inverseCdf_cases weights u with ⟨hlast, -⟩ | ⟨hlt, habove, -⟩
  · exact hlast
  · have hle := cumulative_mono hnonneg (Nat.succ_le_of_lt hlt)
    rw [cumulative_of_length_le (Nat.le_refl _)] at hle
    exact absurd (habove.trans_le hle) (not_lt.2 h)

theorem inverseCdf_monotone (weights : List ℝ) : Monotone (inverseCdf weights) := by
  intro u v huv
  rcases inverseCdf_cases weights v with ⟨hlast, -⟩ | ⟨hlt, habove, -⟩
  · rw [hlast]
    cases weights with
    | nil => exact Nat.le_refl _
    | cons w ws => exact Nat.le_sub_one_of_lt (inverseCdf_lt (List.cons_ne_nil w ws))
  · exact inverseCdf_le hlt (huv.trans_lt habove)

/-- A number below the total lies in the interval of its index. -/
theorem inverseCdf_interval (hu : u ∈ Set.Ico 0 weights.sum) :
    inverseCdf weights u < weights.length ∧ cumulative weights (inverseCdf weights u) ≤ u ∧
      u < cumulative weights (inverseCdf weights u + 1) := by
  rcases inverseCdf_cases weights u with ⟨-, hall⟩ | ⟨hlt, habove, hbelow⟩
  · -- the last running sum is the total; without weights there is no number below it
    have hpos : 0 < weights.length := by
      refine List.length_pos_iff.2 fun hnil => ?_
      rw [hnil, List.sum_nil] at hu
      exact absurd hu.1 (not_le.2 hu.2)
    have hlast := hall (weights.length - 1) (by omega)
    rw [cumulative_of_length_le (by omega)] at hlast
    exact absurd hu.2 (not_lt.2 hlast)
  · refine ⟨hlt, ?_, habove⟩
    cases hk : inverseCdf weights u with
    | zero => rw [cumulative_zero]; exact hu.1
    | succ k => exact hbelow k (by omega)

/-- The weight at the index of a number below the total is positive. -/
theorem inverseCdf_weight_pos (hu : u ∈ Set.Ico 0 weights.sum) :
    ∃ w, weights[inverseCdf weights u]? = some w ∧ 0 < w := by
  obtain ⟨hlt, hlow, hhigh⟩ := inverseCdf_interval hu
  have hw := List.getElem?_eq_getElem hlt
  rw [cumulative_succ hw] at hhigh
  exact ⟨_, hw, by linarith⟩

/-- No two intervals hold the same number. -/
theorem index_unique (hnonneg : ∀ w ∈ weights, 0 ≤ w) (hk : cumulative weights k ≤ u)
    (hk' : u < cumulative weights (k + 1)) (hl : cumulative weights l ≤ u)
    (hl' : u < cumulative weights (l + 1)) : k = l := by
  have hle : ∀ {i j : Nat}, cumulative weights i ≤ u → u < cumulative weights (j + 1) → i ≤ j := by
    intro i j hi hj
    by_contra hlt
    have hmono := cumulative_mono hnonneg (Nat.succ_le_of_lt (Nat.lt_of_not_le hlt))
    exact absurd (hj.trans_le hmono) (not_lt.2 hi)
  exact Nat.le_antisymm (hle hk hl') (hle hl hk')

section
variable (hnonneg : ∀ w ∈ weights, 0 ≤ w)
include hnonneg

/-- The interval of an index holds just the numbers with that index. -/
theorem mem_interval_iff (hk : k < weights.length) :
    u ∈ Set.Ico (cumulative weights k) (cumulative weights (k + 1)) ↔
      u ∈ Set.Ico 0 weights.sum ∧ inverseCdf weights u = k := by
  constructor
  · rintro ⟨hlow, hhigh⟩
    have hzero : 0 ≤ cumulative weights k := by
      rw [← cumulative_zero weights]
      exact cumulative_mono hnonneg (Nat.zero_le k)
    have hsum : cumulative weights (k + 1) ≤ weights.sum := by
      rw [← cumulative_of_length_le (Nat.le_refl weights.length)]
      exact cumulative_mono hnonneg hk
    have hu : u ∈ Set.Ico 0 weights.sum := ⟨hzero.trans hlow, hhigh.trans_le hsum⟩
    obtain ⟨-, hlow', hhigh'⟩ := inverseCdf_interval hu
    exact ⟨hu, index_unique hnonneg hlow' hhigh' hlow hhigh⟩
  · rintro ⟨hu, rfl⟩
    exact (inverseCdf_interval hu).2

/-- The interval of an index is as long as its weight. -/
theorem setOf_inverseCdf_eq (hk : weights[k]? = some w) :
    {u ∈ Set.Ico 0 weights.sum | inverseCdf weights u = k} =
      Set.Ico (cumulative weights k) (cumulative weights k + w) := by
  ext u
  rw [← cumulative_succ hk, mem_interval_iff hnonneg (List.getElem?_eq_some_iff.1 hk).1]
  rfl

theorem biUnion_intervals :
    ⋃ k < weights.length, Set.Ico (cumulative weights k) (cumulative weights (k + 1)) =
      Set.Ico 0 weights.sum := by
  ext u
  simp only [Set.mem_iUnion, exists_prop]
  constructor
  · rintro ⟨k, hk, hu⟩
    exact ((mem_interval_iff hnonneg hk).1 hu).1
  · intro hu
    exact ⟨inverseCdf weights u, (inverseCdf_interval hu).1, (inverseCdf_interval hu).2⟩

end

/-! ## Draws -/

/-- A random word gives a number of at least zero and below one. -/
theorem unitOfWord_mem (word : UInt64) : (Scalar.unitOfWord word : ℝ) ∈ Set.Ico 0 1 := by
  have hlt : (word >>> 11).toNat < 2 ^ 53 := by
    rw [UInt64.toNat_shiftRight, Nat.shiftRight_eq_div_pow]
    have := word.toNat_lt
    simp
    omega
  rw [Scalar.unitOfWord]
  generalize (word >>> 11).toNat = n at hlt ⊢
  have hunit : (Scalar.ofNat n / Scalar.ofNat (1 <<< 53) : ℝ) = n / 2 ^ 53 := by
    norm_num [Scalar.ofNat, Scalar.ofInt, Nat.shiftLeft_eq]
  rw [hunit]
  refine ⟨by positivity, (div_lt_one (by positivity)).2 ?_⟩
  exact_mod_cast hlt

/-- A draw is the index of a number below the total, and so of a positive weight. -/
theorem categorical_weight_pos {γ : Type} [Generator γ] (hsum : 0 < weights.sum) (g : γ) :
    ∃ w, weights[(categorical weights weights.sum g).1]? = some w ∧ 0 < w := by
  obtain ⟨hzero, hone⟩ := unitOfWord_mem (Generator.next g).1
  exact inverseCdf_weight_pos ⟨mul_nonneg hzero hsum.le, mul_lt_of_lt_one_left hsum hone⟩

end

/-- Weights that are not negative and have a positive total cut the numbers below the total into one
interval for each index, as long as its weight: they are disjoint and together all of the numbers,
and a number has the index of the interval that it lies in. So the weight at its index is positive,
and draws give no index without weight. The index does not decrease with the number, and numbers
from the total on have the last index. Over any scalars, doubles that are no numbers or infinite
among them, the index is that of a weight if there is one. -/
theorem inverseCdf_proportional :
    (∀ weights : List ℝ, (∀ w ∈ weights, 0 ≤ w) → 0 < weights.sum →
      (∀ u ∈ Set.Ico 0 weights.sum, ∃ k w, inverseCdf weights u = k ∧ weights[k]? = some w ∧
        0 < w ∧ cumulative weights k ≤ u ∧ u < cumulative weights (k + 1)) ∧
      (∀ k w, weights[k]? = some w → {u ∈ Set.Ico 0 weights.sum | inverseCdf weights u = k} =
        Set.Ico (cumulative weights k) (cumulative weights k + w)) ∧
      ⋃ k < weights.length, Set.Ico (cumulative weights k) (cumulative weights (k + 1)) =
        Set.Ico 0 weights.sum ∧
      Pairwise (Function.onFun Disjoint fun k =>
        Set.Ico (cumulative weights k) (cumulative weights (k + 1))) ∧
      Monotone (inverseCdf weights) ∧
      (∀ u, weights.sum ≤ u → inverseCdf weights u = weights.length - 1) ∧
      ∀ {γ : Type} [Generator γ] (g : γ), ∃ w,
        weights[(categorical weights weights.sum g).1]? = some w ∧ 0 < w) ∧
    ∀ {α : Type} [Scalar α] (weights : List α) (u : α), weights ≠ [] →
      inverseCdf weights u < weights.length := by
  refine ⟨fun weights hnonneg hsum => ⟨fun u hu => ?_, fun k w => setOf_inverseCdf_eq hnonneg,
    biUnion_intervals hnonneg, (cumulative_mono hnonneg).pairwise_disjoint_on_Ico_succ,
    inverseCdf_monotone weights, fun u => inverseCdf_of_sum_le hnonneg,
    fun g => categorical_weight_pos hsum g⟩, fun weights u h => inverseCdf_lt h⟩
  obtain ⟨w, hw, hpos⟩ := inverseCdf_weight_pos hu
  exact ⟨_, w, rfl, hw, hpos, (inverseCdf_interval hu).2⟩

/-- A half, nothing and a half: the middle index has no numbers, and the last one has those from a
half on. Doubles that are no numbers have an index too. -/
theorem inverseCdf_proportional_nothing_between :
    let weights : List ℝ := [1 / 2, 0, 1 / 2]
    (∀ w ∈ weights, 0 ≤ w) ∧ weights.sum = 1 ∧
      {u ∈ Set.Ico (0 : ℝ) 1 | inverseCdf weights u = 1} = ∅ ∧
      {u ∈ Set.Ico (0 : ℝ) 1 | inverseCdf weights u = 2} = Set.Ico (1 / 2) 1 ∧
      inverseCdf weights 1 = 2 ∧ inverseCdf [(0 / 0 : Float), 1] (0 / 0) < 2 := by
  intro weights
  have hnonneg : ∀ w ∈ weights, 0 ≤ w := by simp [weights]
  have hsum : weights.sum = 1 := by norm_num [weights]
  obtain ⟨hexact, hany⟩ := inverseCdf_proportional
  obtain ⟨-, hintervals, -, -, -, hlast, -⟩ := hexact weights hnonneg (by rw [hsum]; exact one_pos)
  rw [hsum] at hintervals hlast
  refine ⟨hnonneg, hsum, ?_, ?_, hlast 1 (le_refl 1), hany _ _ (List.cons_ne_nil _ _)⟩
  · rw [hintervals 1 0 rfl, add_zero, Set.Ico_self]
  · rw [hintervals 2 (1 / 2) rfl]
    norm_num [weights, cumulative]

end TopicModel
