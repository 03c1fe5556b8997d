import Mathlib
import TopicModel.Proofs.Doubles
import TopicModel.Proofs.Exact

/-!
# Sums of weights

Weights that are computed without a failure are each positive and finite and were read from counts
of the model that are not negative; their total is the sum from the left (`weightsFrom_read`). Of
the total itself nothing is checked. It is positive with the weights, but in doubles a sum of finite
weights can leave their range, and every draw from an infinite total is the last topic
(`topicWeights_total`).
-/

namespace TopicModel

section
variable {α : Type} [Scalar α] {o : Options α} {c : Counts} {word : Nat} {sum : α}

/-- All weights are proper. -/
theorem isProper_of_mem_weights {n : Nat} {tc : List Int} {weights : List α}
    (h : topicWeights o c word n tc = (weights, .ok sum)) :
    ∀ w ∈ weights, Scalar.isProper w = true := by
  intro w hw
  obtain ⟨j, hj, rfl⟩ := List.mem_iff_getElem.1 hw
  obtain ⟨x, n, t, -, -, -, hweight, -, -, hproper⟩ :=
    (weightsFrom_read h).2 j (by rwa [← length_weightsFrom h])
  rw [List.getElem?_eq_getElem hj, Option.some.injEq] at hweight
  rwa [hweight]

/-- A number that is below no running sum is looked up as the last weight. -/
theorem inverseCdf_of_not_lt {u : α} (hu : ∀ y, Scalar.lt u y = false) (weights : List α) :
    inverseCdf weights u = weights.length - 1 := by
  have hnone : ∀ (weights : List α) (acc : α) (k : Nat), firstAbove? u weights acc k = none := by
    intro weights
    induction weights with
    | nil => exact fun _ _ => rfl
    | cons w ws ih =>
      intro acc k
      rw [firstAbove?, hu]
      exact ih _ _
  rw [inverseCdf, hnone, Option.getD_none]

end

/-! ## In doubles -/

/-- Weights that are computed without a failure are one a topic, each positive and finite and read
from counts that are not negative, and the total is their sum from the left. The total is positive.
It need not be finite, and where it is not every draw is the last topic. -/
theorem topicWeights_total {γ : Type} [Generator γ] {o : Options Float} {c : Counts}
    {word n : Nat} {tc : List Int} {weights : List Float} {total : Float}
    (h : topicWeights o c word n tc = (weights, .ok total)) :
    weights.length = n ∧ (∀ w ∈ weights, Scalar.isProper w = true) ∧
      (∀ j < n, ∃ inDocument ofWord ofTopic, tc[j]? = some inDocument ∧
        c.entry? word j = some ofWord ∧ c.total? j = some ofTopic ∧
        weights[j]? = some (conditional o inDocument ofWord ofTopic) ∧ 0 ≤ ofWord ∧ 0 ≤ ofTopic) ∧
      total = Scalar.sum weights ∧
      (0 < n → Scalar.lt Scalar.zero total = true ∧
        (Scalar.isFinite total = false → ∀ g : γ, (categorical weights total g).1 = n - 1)) := by
  have hlen := length_weightsFrom h
  have hproper := isProper_of_mem_weights h
  obtain ⟨hsum, hread⟩ := weightsFrom_read h
  refine ⟨hlen, hproper, fun j hj => ?_, hsum, fun hn => ?_⟩
  · obtain ⟨x, w, t, hx, hw, ht, hweight, hw0, ht0, -⟩ := hread j hj
    rw [Nat.zero_add] at hw ht
    exact ⟨x, w, t, hx, hw, ht, hweight, hw0, ht0⟩
  · have hpos : Scalar.lt Scalar.zero total = true := by
      rw [hsum]
      refine Doubles.zero_lt_sum (List.ne_nil_of_length_pos (by omega)) fun w hw => ?_
      have hw := hproper w hw
      rw [Scalar.isProper, Bool.and_eq_true] at hw
      exact hw.1
    refine ⟨hpos, fun hinf g => ?_⟩
    rw [← hlen]
    exact inverseCdf_of_not_lt (Doubles.not_lt_unit_mul_infinite _ hpos hinf) weights

/-- Three finite weights with an infinite sum. -/
theorem topicWeights_total_three_topics :
    let o : Options Float := ⟨1, 3, 1e308, 0.5⟩
    let c : Counts := ⟨1, 3, #[1, 1, 0, 1, 1, 0], rfl⟩
    ∃ weights total, topicWeights o c 0 3 [1, 0, 0] = (weights, .ok total) ∧
      (∀ w ∈ weights, Scalar.isProper w = true) ∧ Scalar.lt Scalar.zero total = true ∧
      Scalar.isFinite total = false ∧ ∀ g : Xoshiro, (categorical weights total g).1 = 2 := by
  intro o c
  have h : topicWeights o c 0 3 [1, 0, 0] =
      ([1e308, 1e308, 1e308], .ok (Float.ofBits 0x7FF0000000000000)) := by decide +kernel
  have hinf : Scalar.isFinite (Float.ofBits 0x7FF0000000000000) = false := by decide +kernel
  obtain ⟨-, hproper, -, -, htotal⟩ := topicWeights_total (γ := Xoshiro) h
  obtain ⟨hpos, hdraw⟩ := htotal (by decide)
  exact ⟨_, _, h, hproper, hpos, hinf, hdraw hinf⟩

/-- Valid options and counts of no token at all for which two weights of `1e308` are summed to
infinity, and no failure reports it. -/
theorem topicWeights_infinite :
    let o : Options Float := ⟨1, 2, 1e308, 1⟩
    let c : Counts := .zeros 1 2
    o.check = .ok () ∧
      topicWeights o c 0 2 [0, 0] = ([1e308, 1e308], .ok (Float.ofBits 0x7FF0000000000000)) ∧
      Scalar.isProper (Float.ofBits 0x7FF0000000000000) = false := by
  decide +kernel

end TopicModel
