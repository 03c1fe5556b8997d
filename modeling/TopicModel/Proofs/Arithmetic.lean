import Mathlib
import TopicModel.Arithmetic

/-!
# Numbers up to what is stored of them

Two numbers are stored alike just if they are congruent modulo `Arithmetic.modulus`, which is
`2 ^ 64` where results wrap around and zero where they do not: congruence modulo zero is equality.
So a statement about congruent numbers holds in every arithmetic, and in the exact one it is about
the numbers themselves (`modEq_exact_iff`).

A number has room if it is stored as it is (`signed_eq_self_iff`), as all numbers do in the exact
arithmetic (`hasRoom_exact`). What is stored of a sum depends on the sum alone, not on the results
on the way to it (`sum_eq`).
-/

namespace TopicModel

namespace Arithmetic

variable [Arithmetic] {x y z : Int} {xs : List Int}

/-- Numbers that differ by a multiple of it are stored alike. -/
def modulus : Int := if wraps then 2 ^ 64 else 0

theorem signed_eq_signed_iff : signed x = signed y ↔ x ≡ y [ZMOD modulus] := by
  unfold signed modulus
  split
  · rw [Int.bmod_eq_bmod_iff_bmod_sub_eq_zero, Int.bmod_eq_iff (by decide),
      Int.modEq_iff_dvd]
    simp
  · rw [Int.modEq_zero_iff]

@[simp] theorem signed_signed : signed (signed x) = signed x := by
  unfold signed
  split
  · exact Int.bmod_bmod
  · rfl

theorem signed_modEq (x : Int) : signed x ≡ x [ZMOD modulus] :=
  signed_eq_signed_iff.1 signed_signed

/-- A number has room if it is in the range of those that are stored. -/
theorem signed_eq_self_iff : signed x = x ↔ wraps = true → -2 ^ 63 ≤ x ∧ x < 2 ^ 63 := by
  unfold signed
  split
  · rename_i h
    rw [Nat.one_shiftLeft, Int.bmod_eq_iff (by decide), forall_prop_of_true h]
    norm_num
  · rename_i h
    simp [h]

/-- No number is further from zero than one that has room. -/
theorem signed_eq_self_of_abs_le (h : signed y = y) (hle : x ≤ y) (hge : -y ≤ x) :
    signed x = x := by
  rw [signed_eq_self_iff] at h ⊢
  intro hw
  have hy := h hw
  omega

@[simp] theorem signed_zero : signed 0 = 0 := signed_eq_self_iff.2 fun _ => by decide

/-- A stored number is told by what it is congruent to. -/
theorem eq_signed_of_modEq (hx : signed x = x) (h : x ≡ y [ZMOD modulus]) : x = signed y :=
  hx.symm.trans (signed_eq_signed_iff.2 h)

/-- A congruence is one of the differences. -/
theorem modEq_of_sub_eq {x' y' : Int} (h : x ≡ y [ZMOD modulus]) (hsub : y' - x' = y - x) :
    x' ≡ y' [ZMOD modulus] := by
  rwa [Int.modEq_iff_dvd, hsub, ← Int.modEq_iff_dvd]

@[simp] theorem signed_add_left : signed (signed x + y) = signed (x + y) :=
  signed_eq_signed_iff.2 ((signed_modEq x).add_right y)

@[simp] theorem signed_add_right : signed (x + signed y) = signed (x + y) :=
  signed_eq_signed_iff.2 ((signed_modEq y).add_left x)

@[simp] theorem signed_sub_left : signed (signed x - y) = signed (x - y) :=
  signed_eq_signed_iff.2 ((signed_modEq x).sub_right y)

@[simp] theorem signed_sub_right : signed (x - signed y) = signed (x - y) :=
  signed_eq_signed_iff.2 ((signed_modEq y).sub_left x)

/-- The sum of numbers, each result on the way to it stored, is what is stored of their sum. -/
theorem sum_eq (xs : List Int) : sum xs = signed xs.sum := by
  induction xs with
  | nil => exact signed_zero.symm
  | cons x xs ih =>
    rw [List.sum_cons, sum, List.foldr_cons, ← sum, ih, signed_add_right]

/-- Sums of numbers that are congruent one by one. -/
theorem modEq_sum_map {ι : Type} {f g : ι → Int} {l : List ι}
    (h : ∀ i ∈ l, f i ≡ g i [ZMOD modulus]) : (l.map f).sum ≡ (l.map g).sum [ZMOD modulus] := by
  induction l with
  | nil => rfl
  | cons i l ih =>
    obtain ⟨hi, hl⟩ := List.forall_mem_cons.1 h
    exact hi.add (ih hl)

@[simp] theorem unsigned_unsigned {bits n : Nat} :
    unsigned bits (unsigned bits n) = unsigned bits n := by
  unfold unsigned
  split
  · exact Nat.mod_mod _ _
  · rfl

@[simp] theorem unsigned_add_left {bits m n : Nat} :
    unsigned bits (unsigned bits m + n) = unsigned bits (m + n) := by
  unfold unsigned
  split
  · exact Nat.mod_add_mod _ _ _
  · rfl

@[simp] theorem unsigned_add_right {bits m n : Nat} :
    unsigned bits (m + unsigned bits n) = unsigned bits (m + n) := by
  rw [Nat.add_comm, unsigned_add_left, Nat.add_comm]

@[simp] theorem unsigned_zero {bits : Nat} : unsigned bits 0 = 0 := by
  unfold unsigned
  split
  · exact Nat.zero_mod _
  · rfl

theorem unsigned_eq_self_iff {bits n : Nat} :
    unsigned bits n = n ↔ wraps = true → n < 2 ^ bits := by
  unfold unsigned
  split
  · rename_i h
    rw [Nat.one_shiftLeft, forall_prop_of_true h, Nat.mod_eq_iff_lt (by positivity)]
  · rename_i h
    simp [h]

theorem unsigned_eq_self_mono {bits m n : Nat} (h : unsigned bits n = n) (hle : m ≤ n) :
    unsigned bits m = m :=
  unsigned_eq_self_iff.2 fun hw => hle.trans_lt (unsigned_eq_self_iff.1 h hw)

/-- A number of tokens is stored as it is. No document has more whose tokens can be given a topic
each in memory. -/
def HasRoom (n : Nat) : Prop := signed n = n

instance (n : Nat) : Decidable (HasRoom n) := inferInstanceAs (Decidable (_ = _))

theorem hasRoom_iff {n : Nat} : HasRoom n ↔ (wraps = true → n < 2 ^ 63) := by
  rw [HasRoom, signed_eq_self_iff]
  constructor
  · intro h hw
    exact_mod_cast (h hw).2
  · intro h hw
    exact ⟨by omega, by exact_mod_cast h hw⟩

theorem HasRoom.mono {m n : Nat} (h : HasRoom n) (hle : m ≤ n) : HasRoom m :=
  hasRoom_iff.2 fun hw => hle.trans_lt (hasRoom_iff.1 h hw)

theorem HasRoom.unsigned_eq {n : Nat} (h : HasRoom n) : unsigned 64 n = n :=
  unsigned_eq_self_iff.2 fun hw => (hasRoom_iff.1 h hw).trans (by decide)

/-- Every number is as it is stored. -/
def Stored (xs : List Int) : Prop := ∀ x ∈ xs, signed x = x

theorem stored_modify {f : Int → Int} {i : Nat} (h : Stored xs) :
    Stored (xs.modify i fun x => signed (f x)) := by
  intro x hx
  obtain ⟨k, hk, rfl⟩ := List.mem_iff_getElem.1 hx
  rw [List.getElem_modify]
  split
  · exact signed_signed
  · exact h _ (List.getElem_mem _)

/-- A change after which all numbers have room. -/
theorem modify_signed {f : Int → Int} {i : Nat} (h : Stored (xs.modify i f)) :
    xs.modify i (fun x => signed (f x)) = xs.modify i f := by
  refine List.ext_getElem (by simp) fun k hk hk' => ?_
  have hstored := h _ (List.getElem_mem hk')
  rw [List.getElem_modify] at hstored ⊢
  rw [List.getElem_modify]
  split
  · rename_i hi
    rwa [if_pos hi] at hstored
  · rfl

end Arithmetic

/-! ## Exact results -/

namespace Arithmetic

open scoped Exact

@[simp] theorem signed_exact (x : Int) : signed x = x := rfl

@[simp] theorem unsigned_exact (bits n : Nat) : unsigned bits n = n := rfl

@[simp] theorem sum_exact (xs : List Int) : sum xs = xs.sum := sum_eq xs

theorem modEq_exact_iff {x y : Int} : x ≡ y [ZMOD modulus] ↔ x = y := Int.modEq_zero_iff

theorem hasRoom_exact (n : Nat) : HasRoom n := rfl

end Arithmetic

end TopicModel
