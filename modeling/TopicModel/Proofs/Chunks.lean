import Mathlib
import TopicModel.Chunks
import TopicModel.Proofs.Rounding

/-!
# Chunks cover their list

`flatten_chunked`: cutting a list into chunks and joining them gives the list back, for any length
and number of chunks, and no chunk is empty (`ne_nil_of_mem_chunked`). The chunk size is a quotient
of rounded numbers; what matters is that it is not zero (`chunkSize_pos`), since ranges of the size
zero would hold nothing while the starts still advance.
-/

namespace TopicModel

open Decimal (Binary)

/-- The number of chunks in doubles, by which the number of items is divided. -/
theorem parts_pos_le (chunks : Nat) :
    0 < (Binary.nearest (max (min chunks chunkLimit) 1) 1).floor ∧
      (Binary.nearest (max (min chunks chunkLimit) 1) 1).floor ≤ 2 ^ 65 := by
  have hlimit : chunkLimit = 2 ^ 64 - 1 := rfl
  have hnear := Binary.floor_nearest_near (max (min chunks chunkLimit) 1)
  omega

theorem chunkSize_pos {n : Nat} (h : 0 < n) (chunks : Nat) : 0 < chunkSize n chunks := by
  have hnear := Binary.floor_nearest_near n
  have hitems : 0 < (Binary.nearest n 1).floor := by omega
  obtain ⟨hparts, hle⟩ := parts_pos_le chunks
  have hlow := Binary.lt_ceil_nearest hitems hparts hle
  refine Nat.lt_min.2 ⟨by decide, Nat.pos_of_ne_zero fun hzero => ?_⟩
  rw [hzero, Nat.zero_mul] at hlow
  omega

theorem length_chunkRanges (n chunks : Nat) :
    (chunkRanges n chunks).length = n ⌈/⌉ max (chunkSize n chunks) 1 := by
  rw [chunkRanges, List.length_map, List.length_range, Nat.ceilDiv_eq_add_pred_div]

theorem chunkRanges_zero (chunks : Nat) : chunkRanges 0 chunks = [] := by
  rw [← List.length_eq_zero_iff, length_chunkRanges, zero_ceilDiv]

/-- The ranges up to one of them end where the next one starts. -/
theorem sum_chunks (n step : Nat) : ∀ m : Nat,
    ((List.range m).map fun i => min (i * step + step) n - i * step).sum = min (m * step) n
  | 0 => by simp
  | m + 1 => by
    rw [List.range_succ, List.map_append, List.sum_append, sum_chunks n step m, List.map_singleton,
      List.sum_singleton, Nat.succ_mul]
    omega

theorem sum_chunkRanges (n chunks : Nat) :
    ((chunkRanges n chunks).map fun (start, stop) => stop - start).sum = n := by
  rcases Nat.eq_zero_or_pos n with rfl | hn
  · rw [chunkRanges_zero]
    rfl
  · have hpos := chunkSize_pos hn chunks
    have hmax : max (chunkSize n chunks) 1 = chunkSize n chunks := max_eq_left hpos
    rw [chunkRanges]
    simp only [hmax, ← Nat.ceilDiv_eq_add_pred_div, List.map_map, Function.comp_def]
    rw [sum_chunks, Nat.mul_comm]
    exact Nat.min_eq_right (le_smul_ceilDiv hpos)

/-- No range is empty. -/
theorem lt_of_mem_chunkRanges {n chunks : Nat} : ∀ r ∈ chunkRanges n chunks, r.1 < r.2 := by
  intro r hr
  obtain ⟨i, hi, rfl⟩ := List.mem_map.1 hr
  have hlt := Nat.succ_le_of_lt (List.mem_range.1 hi)
  rw [Nat.le_div_iff_mul_le (by omega), Nat.succ_mul] at hlt
  dsimp only
  rcases Nat.eq_zero_or_pos n with rfl | hn
  · omega
  · have hpos := chunkSize_pos hn chunks
    omega

theorem ne_nil_of_mem_splitLengths {δ : Type} : ∀ {ns : List Nat} {xs : List δ},
    (∀ n ∈ ns, 0 < n) → ns.sum ≤ xs.length → ∀ ys ∈ splitLengths ns xs, ys ≠ []
  | [], _, _, _ => by simp [splitLengths]
  | n :: ns, xs, hpos, hsum => by
    obtain ⟨hn, hns⟩ := List.forall_mem_cons.1 hpos
    rw [List.sum_cons] at hsum
    rw [splitLengths, List.forall_mem_cons]
    refine ⟨List.ne_nil_of_length_pos ?_, ne_nil_of_mem_splitLengths hns ?_⟩
    · rw [List.length_take]
      omega
    · rw [List.length_drop]
      omega

/-- No chunk is empty. -/
theorem ne_nil_of_mem_chunked {δ : Type} {xs : List δ} {chunks : Nat} :
    ∀ ys ∈ chunked xs chunks, ys ≠ [] := by
  refine ne_nil_of_mem_splitLengths ?_ (Nat.le_of_eq (sum_chunkRanges xs.length chunks))
  intro n hn
  obtain ⟨r, hr, rfl⟩ := List.mem_map.1 hn
  exact Nat.sub_pos_of_lt (lt_of_mem_chunkRanges r hr)

theorem flatten_splitLengths {δ : Type} : ∀ (ns : List Nat) (xs : List δ),
    (splitLengths ns xs).flatten = xs.take ns.sum
  | [], xs => by simp [splitLengths]
  | n :: ns, xs => by
    rw [splitLengths, List.flatten_cons, flatten_splitLengths ns, List.sum_cons, List.take_add]

/-- The chunks of a list, joined, are the list. -/
theorem flatten_chunked {δ : Type} (xs : List δ) (chunks : Nat) :
    (chunked xs chunks).flatten = xs := by
  rw [chunked, flatten_splitLengths, sum_chunkRanges, List.take_length]

end TopicModel
