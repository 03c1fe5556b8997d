import Mathlib
import TopicModel.Storage.ModelBinary

/-!
# Binary models read again

Eight bytes, least significant first, are the number below `2 ^ 64` that they were made of
(`ofWordBytes_wordBytes`), and in two's complement they are the integer (`intOfWord_wordOfInt`). The
words of a model are therefore taken one by one as they were put (`takeWords?_words`), and a model
whose numbers are in range is read again, whatever bytes follow it
(`SavedModel.parseBinary?_append`). The concentrations are stored by their bits, so that they need
not be finite.
-/

namespace TopicModel

variable {n : Nat} {bytes rest : Bytes}

/-! ## Words -/

@[simp] theorem length_wordBytes (n : Nat) : (wordBytes n).length = 8 := by simp [wordBytes]

/-- The first bytes of a number denote what is left of it below a power of 256. -/
theorem ofWordBytes_low : ∀ (k n : Nat),
    ofWordBytes ((List.range k).map fun i => UInt8.ofNat (n >>> (8 * i))) = n % 256 ^ k
  | 0, n => by
    rw [Nat.pow_zero, Nat.mod_one]
    rfl
  | k + 1, n => by
    have htail : (List.range k).map ((fun i => UInt8.ofNat (n >>> (8 * i))) ∘ Nat.succ) =
        (List.range k).map fun i => UInt8.ofNat ((n / 256) >>> (8 * i)) := by
      refine List.map_congr_left fun i _ => ?_
      show UInt8.ofNat (n >>> (8 * (i + 1))) = _
      rw [Nat.mul_succ, Nat.add_comm, Nat.shiftRight_add, Nat.shiftRight_eq_div_pow n 8]
    have hbyte : (UInt8.ofNat (n >>> (8 * 0))).toNat = n % 256 := UInt8.toNat_ofNat'
    rw [List.range_succ_eq_map, List.map_cons, List.map_map, htail]
    show (UInt8.ofNat (n >>> (8 * 0))).toNat + 256 *
      ofWordBytes ((List.range k).map fun i => UInt8.ofNat ((n / 256) >>> (8 * i))) = _
    rw [ofWordBytes_low k, hbyte, Nat.pow_succ', Nat.mod_mul]

/-- Eight bytes denote the number that they were made of. -/
theorem ofWordBytes_wordBytes (h : n < 2 ^ 64) : ofWordBytes (wordBytes n) = n := by
  have hrange : 256 ^ 8 = 2 ^ 64 := by norm_num
  rw [wordBytes, ofWordBytes_low, hrange, Nat.mod_eq_of_lt h]

theorem takeWord?_append (h : n < 2 ^ 64) : takeWord? (wordBytes n ++ rest) = some (n, rest) := by
  have hlen := length_wordBytes n
  have htake : (wordBytes n ++ rest).take 8 = wordBytes n := List.take_left' hlen
  have hdrop : (wordBytes n ++ rest).drop 8 = rest := List.drop_left' hlen
  simp only [takeWord?, htake, hdrop, hlen, if_true, ofWordBytes_wordBytes h]

theorem takeWords?_words : ∀ {ns : List Nat}, (∀ n ∈ ns, n < 2 ^ 64) →
    takeWords? ns.length (ns.flatMap wordBytes ++ rest) = some ns
  | [], _ => rfl
  | n :: ns, h => by
    obtain ⟨hn, h⟩ := List.forall_mem_cons.1 h
    rw [List.length_cons, takeWords?, List.flatMap_cons, List.append_assoc, takeWord?_append hn]
    show (takeWords? ns.length (ns.flatMap wordBytes ++ rest)).bind _ = _
    rw [takeWords?_words h]
    rfl

/-! ## Two's complement -/

theorem wordOfInt_lt (i : Int) : wordOfInt i < 2 ^ 64 := by
  have hlow := Int.emod_nonneg i (b := wordRange) (by decide)
  have hhigh := Int.emod_lt_of_pos i (b := wordRange) (by decide)
  have hrange : (wordRange : Int) = 2 ^ 64 := rfl
  rw [wordOfInt]
  omega

theorem intOfWord_wordOfInt {i : Int} (hlow : -2 ^ 63 ≤ i) (hhigh : i < 2 ^ 63) :
    intOfWord (wordOfInt i) = i := by
  have hnonneg := Int.emod_nonneg i (b := wordRange) (by decide)
  rw [intOfWord, wordOfInt, Int.toNat_of_nonneg hnonneg, Int.emod_bmod]
  exact Int.bmod_eq_of_le (by simpa [wordRange] using hlow) (by simpa [wordRange] using hhigh)

/-! ## Models -/

namespace SavedModel

variable {α : Type} {s : SavedModel Float}

/-- The numbers of the model are in the ranges of their types. Nothing is said about how they go
together. -/
structure InRange (s : SavedModel α) : Prop where
  vocSize : s.vocSize < 2 ^ 64
  topicNum : s.topicNum < 2 ^ 64
  iterations : s.iterations < 2 ^ 64
  length : s.flat.length < 2 ^ 64
  flat : ∀ i ∈ s.flat, -2 ^ 63 ≤ i ∧ i < 2 ^ 63

/-- Every number takes eight bytes. -/
theorem length_writtenBinary (s : SavedModel Float) :
    s.writtenBinary.length = 8 * (6 + s.flat.length) := by
  have hwords : s.words.length = 6 + s.flat.length := by
    rw [words, List.length_append, List.length_map]
    rfl
  rw [writtenBinary, List.length_flatMap, List.map_congr_left fun n _ => length_wordBytes n,
    List.map_const', List.sum_replicate, hwords, smul_eq_mul, Nat.mul_comm]

/-- A model is read from its words, and bytes behind them are passed over. -/
theorem parseBinary?_append (h : s.InRange) : parseBinary? (s.writtenBinary ++ rest) = some s := by
  have hflat : takeWords? s.flat.length ((s.flat.map wordOfInt).flatMap wordBytes ++ rest) =
      some (s.flat.map wordOfInt) := by
    rw [← List.length_map wordOfInt]
    exact takeWords?_words (List.forall_mem_map.2 fun i _ => wordOfInt_lt i)
  have hints : (s.flat.map wordOfInt).map intOfWord = s.flat := by
    have hinverse : ∀ i ∈ s.flat, intOfWord (wordOfInt i) = i := fun i hi =>
      intOfWord_wordOfInt (h.flat i hi).1 (h.flat i hi).2
    rw [List.map_map, Function.comp_def, List.map_congr_left hinverse, List.map_id']
  have hbits : ∀ x : Float, Float.ofBits (UInt64.ofNat x.toBits.toNat) = x := fun x => by
    rw [UInt64.ofNat_toNat, Float.ofBits_toBits]
  rw [writtenBinary, words]
  simp only [List.cons_append, List.nil_append, List.flatMap_cons, List.append_assoc, parseBinary?,
    takeWord?_append h.vocSize, takeWord?_append h.topicNum, takeWord?_append h.iterations,
    takeWord?_append h.length, takeWord?_append (UInt64.toNat_lt _), Option.bind_eq_bind,
    Option.bind_some, hflat, hints, hbits]
  rfl

end SavedModel

end TopicModel
