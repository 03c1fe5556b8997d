import TopicModel.Proofs.Chunks

/-!
# The sizes and the number of chunks

`Tiles n size ranges`: the ranges make up `0, …, n - 1`, one after the other, all of the same length
but perhaps the last. So do the ranges of chunks, whatever size the rounding gives
(`tiles_chunkRanges`).

Their number is another matter, since it depends on the size: they are no more than asked for just
if so many of the size hold all items (`length_chunkRanges_le_iff`). Up to `2 ^ 53` items the size
is the exact quotient rounded up (`chunkSize_eq`) and that is so. Beyond, the number of items may be
rounded down, and then items are left over for further ranges (`chunkRanges_left_over`), which are
few (`mul_le_chunkSize`).
-/

namespace TopicModel

open Decimal (Binary)

variable {n chunks : Nat}

/-! ## The size -/

/-- Items that fit one chunk make one, or none. -/
theorem ceilDiv_of_le {size : Nat} (hsize : 0 < size) (h : n ≤ size) :
    n ⌈/⌉ size = min n 1 := by
  refine eq_of_forall_ge_iff fun k => ?_
  rw [ceilDiv_le_iff_le_mul hsize, min_le_iff]
  rcases Nat.eq_zero_or_pos k with rfl | hk
  · omega
  · have hle : size ≤ size * k := Nat.le_mul_of_pos_right size hk
    omega

/-- Up to `2 ^ 53` items, the size is the exact quotient rounded up. -/
theorem chunkSize_eq (h : n ≤ 2 ^ 53) (chunks : Nat) :
    chunkSize n chunks = n ⌈/⌉ max chunks 1 := by
  have hlimit : chunkLimit = 2 ^ 64 - 1 := rfl
  obtain ⟨hpos, hle⟩ := parts_pos_le chunks
  have hsize : n ⌈/⌉ (Binary.nearest (max (min chunks chunkLimit) 1) 1).floor =
      n ⌈/⌉ max chunks 1 := by
    rcases Nat.lt_or_ge (2 ^ 53) chunks with hmany | hfew
    · -- there are at least as many chunks as items, before and after rounding
      obtain ⟨hlow, -⟩ := Binary.floor_nearest_near (max (min chunks chunkLimit) 1)
      rw [ceilDiv_of_le hpos (by omega), ceilDiv_of_le (by omega) (by omega)]
    · rw [Binary.floor_nearest_eq (by omega), Nat.min_eq_left (by omega)]
  have hquotient : n ⌈/⌉ max chunks 1 ≤ n := by
    rw [ceilDiv_le_iff_le_mul (by omega)]
    exact Nat.le_mul_of_pos_left n (by omega)
  rw [chunkSize, Binary.floor_nearest_eq h, Binary.ceil_nearest h hpos hle, hsize]
  omega

/-- Chunks of the size, as many as asked for, hold all items but about a `2 ^ 51`-th. -/
theorem mul_le_chunkSize (h : n ≤ chunkLimit) (chunks : Nat) :
    2 ^ 51 * n ≤ (2 ^ 51 + 1) * (chunkSize n chunks * max chunks 1) := by
  rcases Nat.eq_zero_or_pos n with rfl | hn
  · exact Nat.zero_le _
  · obtain ⟨hitemsNear, -⟩ := Binary.floor_nearest_near n
    have hitems : 0 < (Binary.nearest n 1).floor := by omega
    obtain ⟨hparts, hle⟩ := parts_pos_le chunks
    obtain ⟨-, hpartsNear⟩ := Binary.floor_nearest_near (max (min chunks chunkLimit) 1)
    have hquotient := Binary.lt_ceil_nearest hitems hparts hle
    rw [chunkSize]
    generalize (Binary.nearest n 1).floor = items at *
    generalize (Binary.nearest (max (min chunks chunkLimit) 1) 1).floor = parts at *
    generalize (Binary.nearest items parts).ceil = size at *
    rcases Nat.le_total chunkLimit size with hmax | hmax
    · have hone : chunkLimit ≤ chunkLimit * max chunks 1 := Nat.le_mul_of_pos_right _ (by omega)
      rw [Nat.min_eq_left hmax]
      omega
    · have hcount : 2 ^ 53 * (size * parts) ≤ (2 ^ 53 + 1) * (size * max chunks 1) :=
        calc 2 ^ 53 * (size * parts) = size * (2 ^ 53 * parts) := Nat.mul_left_comm ..
          _ ≤ size * ((2 ^ 53 + 1) * max chunks 1) := Nat.mul_le_mul_left _ (by omega)
          _ = (2 ^ 53 + 1) * (size * max chunks 1) := Nat.mul_left_comm ..
      rw [Nat.min_eq_right hmax]
      omega

/-! ## The ranges -/

/-- The ranges `[start, stop)` make up `0, …, n - 1`: none is empty, each starts where the one
before it ends, and all have the same length but the last, which may be shorter. -/
structure Tiles (n size : Nat) (ranges : List (Nat × Nat)) : Prop where
  nonempty : ∀ r ∈ ranges, r.1 < r.2
  eq_nil_iff : ranges = [] ↔ n = 0
  first : ∀ r ∈ ranges.head?, r.1 = 0
  adjacent : ranges.IsChain fun r s => r.2 = s.1
  last : ∀ r ∈ ranges.getLast?, r.2 = n
  equal : ∀ r ∈ ranges.dropLast, r.2 - r.1 = size
  shorter : ∀ r ∈ ranges.getLast?, r.2 - r.1 ≤ size

/-- Ranges of the chunk size, and one for what is left. -/
theorem chunkRanges_eq_concat (hn : 0 < n) (chunks : Nat) :
    ∃ k, k * chunkSize n chunks < n ∧ n ≤ (k + 1) * chunkSize n chunks ∧
      chunkRanges n chunks =
        ((List.range k).map fun i => (i * chunkSize n chunks, (i + 1) * chunkSize n chunks)) ++
          [(k * chunkSize n chunks, n)] := by
  have hpos := chunkSize_pos hn chunks
  rw [chunkRanges]
  generalize chunkSize n chunks = size at hpos ⊢
  rw [max_eq_left hpos, ← Nat.ceilDiv_eq_add_pred_div]
  obtain ⟨k, hk⟩ : ∃ k, n ⌈/⌉ size = k + 1 := by
    refine Nat.exists_eq_succ_of_ne_zero fun hzero => ?_
    have hle := (ceilDiv_le_iff_le_mul hpos).1 hzero.le
    omega
  have hlt : k * size < n := by
    refine not_le.1 fun hle => ?_
    rw [Nat.mul_comm, ← ceilDiv_le_iff_le_mul hpos] at hle
    omega
  have hle : n ≤ (k + 1) * size := by
    rw [Nat.mul_comm]
    exact (ceilDiv_le_iff_le_mul hpos).1 hk.le
  refine ⟨k, hlt, hle, ?_⟩
  rw [hk, List.range_succ, List.map_append, List.map_singleton]
  rw [Nat.succ_mul] at hle
  congr 1
  · refine List.map_congr_left fun i hi => ?_
    have hmul : (i + 1) * size ≤ k * size :=
      Nat.mul_le_mul_right _ (Nat.succ_le_of_lt (List.mem_range.1 hi))
    rw [Nat.succ_mul] at hmul ⊢
    rw [min_eq_left (by omega)]
  · rw [min_eq_right hle]

/-- Each range starts where the one before it ends, wherever the last one ends. -/
theorem isChain_ranges (size : Nat) : ∀ k stop : Nat,
    (((List.range k).map fun i => (i * size, (i + 1) * size)) ++ [(k * size, stop)]).IsChain
      fun r s => r.2 = s.1
  | 0, stop => .singleton _
  | k + 1, stop => by
    rw [List.range_succ, List.map_append, List.map_singleton, List.isChain_append]
    refine ⟨isChain_ranges size k _, .singleton _, fun r hr s hs => ?_⟩
    rw [List.getLast?_concat, Option.mem_some_iff] at hr
    cases hr
    cases hs
    rfl

theorem tiles_chunkRanges (n chunks : Nat) :
    Tiles n (chunkSize n chunks) (chunkRanges n chunks) := by
  rcases Nat.eq_zero_or_pos n with rfl | hn
  · rw [chunkRanges_zero]
    exact ⟨by simp, by simp, by simp, .nil, by simp, by simp, by simp⟩
  · obtain ⟨k, hlt, hle, heq⟩ := chunkRanges_eq_concat hn chunks
    have hnonempty : ∀ r ∈ chunkRanges n chunks, r.1 < r.2 := lt_of_mem_chunkRanges
    rw [heq] at hnonempty ⊢
    generalize chunkSize n chunks = size at *
    rw [Nat.succ_mul] at hle
    refine ⟨hnonempty, by simp; omega, ?_, isChain_ranges size k n, by simp, ?_, by simp; omega⟩
    · cases k with
      | zero => simp
      | succ k => simp [List.range_succ_eq_map]
    · simp [Nat.succ_mul]

/-- The ranges are no more than asked for just if so many of the size hold all items. -/
theorem length_chunkRanges_le_iff (n chunks m : Nat) :
    (chunkRanges n chunks).length ≤ m ↔ n ≤ chunkSize n chunks * m := by
  rcases Nat.eq_zero_or_pos n with rfl | hn
  · simp [chunkRanges_zero]
  · have hpos := chunkSize_pos hn chunks
    rw [length_chunkRanges, max_eq_left hpos, ceilDiv_le_iff_le_mul hpos]

/-- Beyond the number asked for, there is at most about one range in `2 ^ 51`. -/
theorem length_chunkRanges_le (h : n ≤ chunkLimit) (chunks : Nat) :
    (chunkRanges n chunks).length ≤ max chunks 1 + max chunks 1 / 2 ^ 51 + 1 := by
  have hlow := mul_le_chunkSize h chunks
  rw [length_chunkRanges_le_iff]
  generalize chunkSize n chunks = size at *
  generalize max chunks 1 = m at *
  have hm : m ≤ 2 ^ 51 * (m / 2 ^ 51 + 1) := by omega
  have hsize : size * m ≤ 2 ^ 51 * (size * (m / 2 ^ 51 + 1)) :=
    calc size * m ≤ size * (2 ^ 51 * (m / 2 ^ 51 + 1)) := Nat.mul_le_mul_left _ hm
      _ = 2 ^ 51 * (size * (m / 2 ^ 51 + 1)) := Nat.mul_left_comm ..
  rw [Nat.add_assoc, Nat.mul_add]
  omega

/-- The ranges of chunks tile the items. Up to `2 ^ 53` items their size is the exact quotient
rounded up, and they are no more than were asked for; for more items they are not just if so many of
the size hold all of them, and otherwise there is at most about one more in `2 ^ 51`. -/
theorem chunkRanges_tile (hn : n ≤ chunkLimit) (chunks : Nat) :
    Tiles n (chunkSize n chunks) (chunkRanges n chunks) ∧
      (n ≤ 2 ^ 53 → chunkSize n chunks = n ⌈/⌉ max chunks 1 ∧
        (chunkRanges n chunks).length ≤ max chunks 1) ∧
      ((chunkRanges n chunks).length ≤ max chunks 1 ↔ n ≤ chunkSize n chunks * max chunks 1) ∧
      (chunkRanges n chunks).length ≤ max chunks 1 + max chunks 1 / 2 ^ 51 + 1 := by
  refine ⟨tiles_chunkRanges n chunks, fun hexact => ?_, length_chunkRanges_le_iff n chunks _,
    length_chunkRanges_le hn chunks⟩
  have hsize := chunkSize_eq hexact chunks
  have hpos : 0 < max chunks 1 := by omega
  refine ⟨hsize, ?_⟩
  rw [length_chunkRanges_le_iff, hsize, Nat.mul_comm]
  exact le_smul_ceilDiv hpos

example : chunkRanges 10 3 = [(0, 4), (4, 8), (8, 10)] := by decide +kernel

/-- Two chunks of `2 ^ 52` items leave one of `2 ^ 53 + 1` over, the only one more there can be. -/
theorem chunkRanges_tile_two_chunks :
    let ranges := [(0, 2 ^ 52), (2 ^ 52, 2 ^ 53), (2 ^ 53, 2 ^ 53 + 1)]
    2 ^ 53 + 1 ≤ chunkLimit ∧ chunkRanges (2 ^ 53 + 1) 2 = ranges ∧
      Tiles (2 ^ 53 + 1) (2 ^ 52) ranges ∧ ranges.length ≤ 2 + 2 / 2 ^ 51 + 1 ∧
      ¬ 2 ^ 53 + 1 ≤ 2 ^ 52 * 2 := by
  intro ranges
  have hn : 2 ^ 53 + 1 ≤ chunkLimit := by decide
  have hranges : chunkRanges (2 ^ 53 + 1) 2 = ranges := by decide +kernel
  have hsize : chunkSize (2 ^ 53 + 1) 2 = 2 ^ 52 := by decide +kernel
  obtain ⟨htiles, -, -, hlength⟩ := chunkRanges_tile hn 2
  rw [hranges, hsize] at htiles
  rw [hranges] at hlength
  exact ⟨hn, hranges, htiles, hlength, by decide⟩

/-- One chunk was asked for, and there are two ranges, although no number here is out of range: the
least number of items that is no double is rounded down, and one item is left over. -/
theorem chunkRanges_left_over :
    (∀ r ∈ chunkRanges (2 ^ 53 + 1) 1, r.1 + chunkSize (2 ^ 53 + 1) 1 ≤ chunkLimit) ∧
      chunkRanges (2 ^ 53 + 1) 1 = [(0, 2 ^ 53), (2 ^ 53, 2 ^ 53 + 1)] ∧
      ¬ (chunkRanges (2 ^ 53 + 1) 1).length ≤ max 1 1 := by
  decide +kernel

end TopicModel
