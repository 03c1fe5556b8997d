import Mathlib
import TopicModel.Counts
import TopicModel.Proofs.Arithmetic

/-!
# The entries of counts

`Counts.value c w k` is the entry of word `w` and topic `k`, zero outside the layout; the totals are
the entries of the word `vocSize`. Each operation is described by what it does to the values
(`value_zeros`, `value_addTokens`, `value_add?`), and counts of one shape with the same values are
equal (`ext_value`).

Two relations tie counts to a list of tokens, each a word with its topic:

* `c.Extends base tokens`: `c` counts the tokens on top of `base`, in any arithmetic, up to the
  multiples of `Arithmetic.modulus`. It is kept when a token is put into both (`Extends.increment`)
  and when one is taken out of both (`Extends.decrement`). Rows and totals grow by the tokens
  (`Extends.row_sum`, `Extends.tokenCount`), and consistency stays as it is
  (`Extends.isConsistent`). Whatever counts there are, any tokens can be read as counted on top of
  others (`exists_extends`).
* `c.Tallies V K tokens`: `c` counts exactly the tokens, on top of nothing. There is at most one
  such `c` (`Tallies.unique`), and it is consistent (`Tallies.isConsistent`). If the number of the
  tokens has room, no entry is negative (`Tallies.nonneg`), and the row of a word sums to the
  occurrences of the word (`Tallies.row_sum`).

Counts are `Stored` if every entry has room. Tokens and sums keep them so.
-/

namespace TopicModel

open Arithmetic (modulus signed)

namespace Counts

variable {c d : Counts} {w w' k k' : Nat}

/-! ## The layout -/

theorem InRange.index_lt (h : c.InRange w k) : c.index w k < c.flat.size := by
  rw [c.size_flat]
  calc c.index w k < w * c.topicNum + c.topicNum := Nat.add_lt_add_left h.2 _
    _ = (w + 1) * c.topicNum := (Nat.succ_mul w c.topicNum).symm
    _ ≤ (c.vocSize + 1) * c.topicNum := Nat.mul_le_mul_right _ (Nat.succ_le_succ h.1)

theorem index_inj (hk : k < c.topicNum) (hk' : k' < c.topicNum) :
    c.index w k = c.index w' k' ↔ w = w' ∧ k = k' := by
  refine ⟨fun h => ?_, fun ⟨hw, hk⟩ => by rw [hw, hk]⟩
  have hpos : 0 < c.topicNum := Nat.lt_of_le_of_lt (Nat.zero_le _) hk
  have hdiv : ∀ {w k : Nat}, k < c.topicNum → c.index w k / c.topicNum = w := by
    intro w k hk
    rw [index, Nat.mul_comm, Nat.mul_add_div hpos, Nat.div_eq_of_lt hk, Nat.add_zero]
  have hw : w = w' := by rw [← hdiv (w := w) hk, h, hdiv hk']
  subst hw
  exact ⟨rfl, Nat.add_left_cancel h⟩

/-- Every place of the flat form is an entry. -/
theorem exists_index {i : Nat} (h : i < c.flat.size) :
    ∃ w k, c.InRange w k ∧ c.index w k = i := by
  rw [c.size_flat] at h
  have hpos : 0 < c.topicNum := Nat.pos_of_lt_mul_left h
  refine ⟨i / c.topicNum, i % c.topicNum, ⟨?_, Nat.mod_lt _ hpos⟩, ?_⟩
  · exact Nat.le_of_lt_succ ((Nat.div_lt_iff_lt_mul hpos).2 h)
  · rw [index, Nat.mul_comm]
    exact Nat.div_add_mod i c.topicNum

/-! ## Values -/

/-- The entry of a word and a topic, zero outside the layout. -/
def value (c : Counts) (word topic : Nat) : Int := (c.entry? word topic).getD 0

theorem entry?_eq (h : c.InRange w k) : c.entry? w k = some (c.value w k) := by
  have hi := h.index_lt
  simp [value, entry?, h, hi]

theorem total?_eq (h : k < c.topicNum) : c.total? k = some (c.value c.vocSize k) :=
  entry?_eq ⟨Nat.le_refl _, h⟩

theorem value_eq (h : c.InRange w k) : c.flat[c.index w k]? = some (c.value w k) := by
  rw [← entry?_eq h, entry?, if_pos h]

/-- An entry is there in counts of one shape or in none of them. -/
theorem entry?_map {f : Int → Int} (hv : d.vocSize = c.vocSize) (hk : d.topicNum = c.topicNum)
    (h : c.InRange w k → d.value w k = f (c.value w k)) :
    d.entry? w k = (c.entry? w k).map f := by
  by_cases hr : c.InRange w k
  · have hr' : d.InRange w k := by rwa [InRange, hv, hk]
    rw [entry?_eq hr, entry?_eq hr', h hr, Option.map_some]
  · have hr' : ¬ d.InRange w k := by rwa [InRange, hv, hk]
    unfold entry?
    rw [if_neg hr, if_neg hr']
    rfl

theorem value_nonneg (h : ∀ n ∈ c.flat, 0 ≤ n) (w k : Nat) : 0 ≤ c.value w k := by
  by_cases hr : c.InRange w k
  · exact h _ (Array.mem_of_getElem? (value_eq hr))
  · simp [value, entry?, hr]

/-- Counts of one shape with the same values are equal. -/
theorem ext_value (hv : c.vocSize = d.vocSize) (hk : c.topicNum = d.topicNum)
    (h : ∀ w k, c.InRange w k → c.value w k = d.value w k) : c = d := by
  have hflat : c.flat = d.flat := by
    apply Array.ext_getElem?
    intro i
    by_cases hi : i < c.flat.size
    · obtain ⟨w, k, hr, rfl⟩ := exists_index hi
      have hr' : d.InRange w k := by rwa [InRange, ← hv, ← hk]
      have hidx : c.index w k = d.index w k := by rw [index, index, hk]
      rw [value_eq hr, hidx, value_eq hr', h w k hr]
    · have hsize : c.flat.size = d.flat.size := by rw [c.size_flat, d.size_flat, hv, hk]
      rw [Array.getElem?_eq_none (by omega), Array.getElem?_eq_none (by omega)]
  obtain ⟨_, _, _, _⟩ := c
  obtain ⟨_, _, _, _⟩ := d
  cases hv
  cases hk
  cases hflat
  rfl

/-! ## The operations -/

@[simp] theorem vocSize_zeros (V K : Nat) : (zeros V K).vocSize = V := rfl

@[simp] theorem topicNum_zeros (V K : Nat) : (zeros V K).topicNum = K := rfl

@[simp] theorem value_zeros (V K w k : Nat) : (zeros V K).value w k = 0 := by
  unfold value entry?
  split
  · simp only [zeros, Array.getElem?_replicate]
    split <;> rfl
  · rfl

section
variable [Arithmetic]

@[simp] theorem vocSize_addTokens (word topic : Nat) (n : Int) :
    (c.addTokens word topic n).vocSize = c.vocSize := by
  unfold addTokens; split <;> rfl

@[simp] theorem topicNum_addTokens (word topic : Nat) (n : Int) :
    (c.addTokens word topic n).topicNum = c.topicNum := by
  unfold addTokens; split <;> rfl

@[simp] theorem inRange_addTokens (word topic : Nat) (n : Int) :
    (c.addTokens word topic n).InRange w k ↔ c.InRange w k := by
  simp [InRange]

end

theorem value_modifyFlat {word topic : Nat} {f : Int → Int} (h : c.InRange word topic)
    (hr : c.InRange w k) :
    (c.modifyFlat (c.index word topic) f).value w k =
      if w = word ∧ k = topic then f (c.value w k) else c.value w k := by
  have hr' : (c.modifyFlat (c.index word topic) f).InRange w k := hr
  apply Option.some.inj
  rw [← value_eq hr']
  show (c.flat.modify (c.index word topic) f)[c.index w k]? = _
  rw [Array.getElem?_modify, value_eq hr]
  simp only [index_inj h.2 hr.2]
  by_cases he : w = word ∧ k = topic
  · rw [if_pos ⟨he.1.symm, he.2.symm⟩, if_pos he]; rfl
  · rw [if_neg fun h => he ⟨h.1.symm, h.2.symm⟩, if_neg he]

section
variable [Arithmetic]

/-- Tokens of a word below the totals change its entry and the total of their topic. -/
theorem value_addTokens {word topic : Nat} {n : Int} (hw : word < c.vocSize)
    (hk : topic < c.topicNum) (hr : c.InRange w k) :
    (c.addTokens word topic n).value w k =
      if (w = word ∨ w = c.vocSize) ∧ k = topic then signed (c.value w k + n) else c.value w k := by
  have h : c.InRange word topic := ⟨Nat.le_of_lt hw, hk⟩
  obtain ⟨m, hm⟩ : ∃ m, m = c.modifyFlat (c.index word topic) fun x => signed (x + n) := ⟨_, rfl⟩
  have hcomp : c.addTokens word topic n =
      m.modifyFlat (m.index c.vocSize topic) fun x => signed (x + n) := by
    rw [addTokens, if_pos h, hm]; rfl
  have ht : m.InRange c.vocSize topic := by rw [hm]; exact ⟨Nat.le_refl _, hk⟩
  have hr' : m.InRange w k := by rw [hm]; exact hr
  rw [hcomp, value_modifyFlat ht hr', hm, value_modifyFlat h hr]
  grind

theorem value_addTokens_modEq {word topic : Nat} {n : Int} (hw : word < c.vocSize)
    (hk : topic < c.topicNum) (hr : c.InRange w k) :
    (c.addTokens word topic n).value w k ≡
      c.value w k + (if (w = word ∨ w = c.vocSize) ∧ k = topic then n else 0) [ZMOD modulus] := by
  rw [value_addTokens hw hk hr]
  split
  · exact Arithmetic.signed_modEq _
  · rw [Int.add_zero]

/-- The value of an entrywise sum. -/
theorem value_add? {e : Counts} (h : c.add? d = some e) (hr : c.InRange w k) :
    e.value w k = signed (c.value w k + d.value w k) := by
  unfold add? at h
  split at h
  · rename_i hs
    have hd : d.InRange w k := by rwa [InRange, ← hs.1, ← hs.2]
    have hidx : c.index w k = d.index w k := by rw [index, index, hs.2]
    have he : e.InRange w k := by cases h; exact hr
    have hflat : e.flat[e.index w k]? =
        (c.flat.zipWith (fun x y => signed (x + y)) d.flat)[c.index w k]? := by
      cases h; rfl
    apply Option.some.inj
    rw [← value_eq he, hflat, Array.getElem?_zipWith, value_eq hr, hidx, value_eq hd]
  · cases h

theorem add?_eq_some (hv : c.vocSize = d.vocSize) (hk : c.topicNum = d.topicNum) :
    ∃ e, c.add? d = some e ∧ e.vocSize = c.vocSize ∧ e.topicNum = c.topicNum :=
  ⟨_, dif_pos ⟨hv, hk⟩, rfl, rfl⟩

/-! ### Stored counts -/

/-- Every entry is as it is stored. -/
def Stored (c : Counts) : Prop := Arithmetic.Stored c.flat.toList

theorem stored_iff : c.Stored ↔ ∀ w k, c.InRange w k → signed (c.value w k) = c.value w k := by
  constructor
  · exact fun h w k hr => h _ (Array.mem_toList_iff.2 (Array.mem_of_getElem? (value_eq hr)))
  · intro h n hn
    obtain ⟨i, hi, rfl⟩ := Array.mem_iff_getElem.1 (Array.mem_toList_iff.1 hn)
    obtain ⟨w, k, hr, rfl⟩ := exists_index hi
    have hvalue := value_eq hr
    rw [Array.getElem?_eq_getElem hi, Option.some.injEq] at hvalue
    rw [hvalue]
    exact h w k hr

theorem stored_modifyFlat {f : Int → Int} {i : Nat} (h : c.Stored) :
    (c.modifyFlat i fun x => signed (f x)).Stored := by
  show Arithmetic.Stored (c.flat.modify i _).toList
  rw [Array.toList_modify]
  exact Arithmetic.stored_modify h

theorem stored_addTokens {word topic : Nat} {n : Int} (h : c.Stored) :
    (c.addTokens word topic n).Stored := by
  unfold addTokens
  split
  · exact stored_modifyFlat (stored_modifyFlat h)
  · exact h

/-- A sum is stored, whatever is added. -/
theorem stored_add? {e : Counts} (h : c.add? d = some e) : e.Stored := by
  refine stored_iff.2 fun w k hr => ?_
  have hr' : c.InRange w k := by
    unfold add? at h
    split at h <;> cases h
    exact hr
  rw [value_add? h hr']
  exact Arithmetic.signed_signed

end

/-! ## Rows and columns -/

theorem row?_eq (h : w ≤ c.vocSize) :
    c.row? w = some ((List.range c.topicNum).map fun k => c.value w k) := by
  rw [row?, if_pos h, Option.some.injEq]
  apply List.ext_getElem?
  intro k
  have hle : (w + 1) * c.topicNum ≤ c.flat.size := by
    rw [c.size_flat]; exact Nat.mul_le_mul_right _ (Nat.succ_le_succ h)
  have hlen : (w + 1) * c.topicNum - w * c.topicNum = c.topicNum := by
    rw [Nat.succ_mul, Nat.add_sub_cancel_left]
  rw [Array.getElem?_toList, Array.getElem?_extract, Nat.min_eq_left hle, hlen, List.getElem?_map]
  by_cases hk : k < c.topicNum
  · rw [if_pos hk, List.getElem?_range hk]
    exact value_eq ⟨h, hk⟩
  · rw [if_neg hk, List.getElem?_eq_none (by simpa using hk)]; rfl

theorem column?_eq (h : k < c.topicNum) :
    c.column? k = some ((List.range c.vocSize).map fun w => c.value w k) := by
  rw [column?, if_pos h]
  have hmap : ∀ ws : List Nat, (∀ w ∈ ws, w < c.vocSize) →
      ws.mapM (fun w => c.entry? w k) = some (ws.map fun w => c.value w k) := by
    intro ws
    induction ws with
    | nil => intro _; rfl
    | cons w ws ih =>
      intro hws
      have hw : c.InRange w k := ⟨Nat.le_of_lt (hws w List.mem_cons_self), h⟩
      rw [List.mapM_cons, entry?_eq hw, ih fun w hw => hws w (List.mem_cons_of_mem _ hw)]
      rfl
  exact hmap _ fun w hw => List.mem_range.1 hw

theorem totals_eq (c : Counts) :
    c.totals = (List.range c.topicNum).map fun k => c.value c.vocSize k := by
  have hrow : c.row? c.vocSize = some c.totals := if_pos (Nat.le_refl _)
  rw [row?_eq (Nat.le_refl _)] at hrow
  exact (Option.some.inj hrow).symm

theorem tokenCount_eq [Arithmetic] (c : Counts) :
    c.tokenCount = signed ((List.range c.topicNum).map fun k => c.value c.vocSize k).sum := by
  rw [tokenCount, totals_eq, Arithmetic.sum_eq]

@[simp] theorem signed_tokenCount [Arithmetic] (c : Counts) :
    signed c.tokenCount = c.tokenCount := by
  rw [tokenCount_eq, Arithmetic.signed_signed]

theorem isConsistent_iff [Arithmetic] : c.isConsistent = true ↔ ∀ k < c.topicNum,
    signed ((List.range c.vocSize).map fun w => c.value w k).sum = c.value c.vocSize k := by
  simp only [Counts.isConsistent, List.all_eq_true, List.mem_range, beq_iff_eq]
  refine forall₂_congr fun k hk => ?_
  rw [column?_eq hk, total?_eq hk, Option.map_some, Option.some.injEq, Arithmetic.sum_eq]

/-- The sums of the columns have room. -/
def ColumnsHaveRoom [Arithmetic] (c : Counts) : Prop := ∀ k < c.topicNum,
  let column := ((List.range c.vocSize).map fun w => c.value w k).sum
  signed column = column

instance [Arithmetic] (c : Counts) : Decidable c.ColumnsHaveRoom :=
  inferInstanceAs (Decidable (∀ k < c.topicNum, _))

/-- Then the totals of consistent counts are the sums of the columns. -/
theorem ColumnsHaveRoom.total_eq [Arithmetic] (hroom : c.ColumnsHaveRoom)
    (h : c.isConsistent = true) (hk : k < c.topicNum) :
    ∑ w ∈ Finset.range c.vocSize, c.value w k = c.value c.vocSize k :=
  (hroom k hk).symm.trans (isConsistent_iff.1 h k hk)

/-- The items with a given property, summed over the values of a function of them. -/
theorem sum_countP_fiber {τ : Type} (f : τ → Nat) (p : τ → Bool) (n : Nat) :
    ∀ l : List τ, (∀ x ∈ l, f x < n) →
      ((List.range n).map fun i => (l.countP (fun x => f x == i && p x) : Int)).sum = l.countP p
  | [], _ => by simp
  | x :: l, h => by
    have ih := sum_countP_fiber f p n l fun y hy => h y (List.mem_cons_of_mem _ hy)
    have hx : f x < n := h x List.mem_cons_self
    have hone : ((List.range n).map fun i =>
        if i = f x then (if p x then 1 else 0 : Int) else 0).sum = if p x then 1 else 0 := by
      rw [List.sum_map_ite_eq, List.count_eq_one_of_mem List.nodup_range (List.mem_range.2 hx)]
      simp
    have hstep : ∀ i, ((x :: l).countP (fun x => f x == i && p x) : Int) =
        l.countP (fun x => f x == i && p x) +
          if i = f x then (if p x then 1 else 0 : Int) else 0 := by
      intro i
      rw [List.countP_cons]
      grind
    rw [List.map_congr_left fun i _ => hstep i, List.sum_map_add, ih, hone, List.countP_cons]
    split <;> simp

/-! ## Counts of tokens -/

theorem natCast_count_cons {τ : Type} [DecidableEq τ] [BEq τ] [LawfulBEq τ] (x y : τ)
    (l : List τ) :
    ((x :: l).count y : Int) = l.count y + if y = x then 1 else 0 := by
  rw [List.count_cons]
  grind

/-- Every token lies in the layout. -/
def Within (vocSize topicNum : Nat) (tokens : List (Nat × Nat)) : Prop :=
  ∀ x ∈ tokens, x.1 < vocSize ∧ x.2 < topicNum

/-- The counts of the given tokens, each a word with its topic, on top of others. -/
structure Extends [Arithmetic] (c base : Counts) (tokens : List (Nat × Nat)) : Prop where
  vocSize_eq : c.vocSize = base.vocSize
  topicNum_eq : c.topicNum = base.topicNum
  entry_modEq : ∀ word < base.vocSize, ∀ topic < base.topicNum,
    c.value word topic ≡ base.value word topic + tokens.count (word, topic) [ZMOD modulus]
  total_modEq : ∀ topic < base.topicNum, c.value base.vocSize topic ≡
    base.value base.vocSize topic + (tokens.map Prod.snd).count topic [ZMOD modulus]

/-- The counts of exactly the given tokens: an entry is the number of tokens of its word with its
topic, a total the number of tokens with its topic, as they are stored. -/
structure Tallies [Arithmetic] (c : Counts) (vocSize topicNum : Nat) (tokens : List (Nat × Nat)) :
    Prop where
  vocSize_eq : c.vocSize = vocSize
  topicNum_eq : c.topicNum = topicNum
  entry : ∀ word < vocSize, ∀ topic < topicNum,
    c.entry? word topic = some (signed (tokens.count (word, topic)))
  total : ∀ topic < topicNum, c.total? topic = some (signed ((tokens.map Prod.snd).count topic))

section
variable {V K : Nat} {tokens : List (Nat × Nat)}

theorem sum_count_topics (hin : Within V K tokens) (w : Nat) :
    ((List.range K).map fun k => (tokens.count (w, k) : Int)).sum =
      (tokens.map Prod.fst).count w := by
  have hfiber := sum_countP_fiber Prod.snd (fun x => x.1 == w) K tokens fun x hx => (hin x hx).2
  rw [List.count, List.countP_map]
  refine Eq.trans (congrArg List.sum (List.map_congr_left fun k _ => ?_)) hfiber
  rw [List.count]
  congr 2
  funext x
  rw [Bool.and_comm]; rfl

theorem sum_count_words (hin : Within V K tokens) (k : Nat) :
    ((List.range V).map fun w => (tokens.count (w, k) : Int)).sum =
      (tokens.map Prod.snd).count k := by
  have hfiber := sum_countP_fiber Prod.fst (fun x => x.2 == k) V tokens fun x hx => (hin x hx).1
  rw [List.count, List.countP_map]
  exact hfiber

theorem sum_count_snd (hin : Within V K tokens) :
    ((List.range K).map fun k => ((tokens.map Prod.snd).count k : Int)).sum = tokens.length := by
  have hfiber := sum_countP_fiber Prod.snd (fun _ => true) K tokens fun x hx => (hin x hx).2
  rw [List.countP_true] at hfiber
  refine Eq.trans (congrArg List.sum (List.map_congr_left fun k _ => ?_)) hfiber
  rw [List.count, List.countP_map]
  congr 2
  funext x
  rw [Bool.and_true]; rfl

end

/-! ### Tokens on top of counts -/

section
variable [Arithmetic] {base : Counts} {tokens tokens' : List (Nat × Nat)}

theorem Extends.refl (c : Counts) : c.Extends c [] :=
  ⟨rfl, rfl, fun _ _ _ _ => by simp, fun _ _ => by simp⟩

theorem Extends.perm (h : c.Extends base tokens) (hp : tokens.Perm tokens') :
    c.Extends base tokens' where
  vocSize_eq := h.vocSize_eq
  topicNum_eq := h.topicNum_eq
  entry_modEq w hw k hk := by rw [← hp.count_eq]; exact h.entry_modEq w hw k hk
  total_modEq k hk := by rw [← (hp.map Prod.snd).count_eq]; exact h.total_modEq k hk

/-- Adding `n` tokens of one kind changes what counts extend by `n` tokens of that kind. -/
theorem Extends.addTokens {n : Int} (h : c.Extends base tokens) (hw : w < base.vocSize)
    (hk : k < base.topicNum)
    (he : ∀ x, (tokens'.count x : Int) = tokens.count x + if x = (w, k) then n else 0)
    (ht : ∀ j, ((tokens'.map Prod.snd).count j : Int) =
      (tokens.map Prod.snd).count j + if j = k then n else 0) :
    (c.addTokens w k n).Extends base tokens' := by
  have hv := h.vocSize_eq
  have hK := h.topicNum_eq
  have hval : ∀ {w' k'}, w' ≤ base.vocSize → k' < base.topicNum → (c.addTokens w k n).value w' k' ≡
      c.value w' k' + (if (w' = w ∨ w' = base.vocSize) ∧ k' = k then n else 0) [ZMOD modulus] := by
    intro w' k' hw' hk'
    rw [← hv]
    exact value_addTokens_modEq (by omega) (by omega) ⟨by omega, by omega⟩
  refine ⟨by simpa using hv, by simpa using hK, fun w' hw' k' hk' => ?_, fun k' hk' => ?_⟩
  · refine (hval (Nat.le_of_lt hw') hk').trans ?_
    refine Arithmetic.modEq_of_sub_eq (h.entry_modEq w' hw' k' hk') ?_
    rw [he]
    grind
  · refine (hval (Nat.le_refl _) hk').trans ?_
    refine Arithmetic.modEq_of_sub_eq (h.total_modEq k' hk') ?_
    rw [ht]
    grind

theorem Extends.increment (h : c.Extends base tokens) (hw : w < base.vocSize)
    (hk : k < base.topicNum) : (c.increment w k).Extends base ((w, k) :: tokens) :=
  h.addTokens hw hk (natCast_count_cons _ · _) (natCast_count_cons _ · _)

theorem Extends.decrement (h : c.Extends base ((w, k) :: tokens)) (hw : w < base.vocSize)
    (hk : k < base.topicNum) : (c.decrement w k).Extends base tokens :=
  h.addTokens hw hk (fun x => by rw [natCast_count_cons]; grind)
    (fun j => by rw [List.map_cons, natCast_count_cons]; grind)

/-- A token that is not yet among those counted on top is taken from below them. -/
theorem Extends.decrement_base (h : c.Extends base tokens) (hw : w < base.vocSize)
    (hk : k < base.topicNum) : c.Extends (base.decrement w k) ((w, k) :: tokens) where
  vocSize_eq := h.vocSize_eq.trans (vocSize_addTokens ..).symm
  topicNum_eq := h.topicNum_eq.trans (topicNum_addTokens ..).symm
  entry_modEq w' hw' k' hk' := by
    rw [Counts.decrement, vocSize_addTokens] at hw'
    rw [Counts.decrement, topicNum_addTokens] at hk'
    have hbase := value_addTokens_modEq (n := -1) hw hk ⟨Nat.le_of_lt hw', hk'⟩
    refine Int.ModEq.trans ?_ (hbase.symm.add_right _)
    refine Arithmetic.modEq_of_sub_eq (h.entry_modEq w' hw' k' hk') ?_
    rw [natCast_count_cons]
    grind
  total_modEq k' hk' := by
    rw [Counts.decrement, topicNum_addTokens] at hk'
    have hbase := value_addTokens_modEq (n := -1) hw hk ⟨Nat.le_refl _, hk'⟩
    rw [Counts.decrement, vocSize_addTokens]
    refine Int.ModEq.trans ?_ (hbase.symm.add_right _)
    refine Arithmetic.modEq_of_sub_eq (h.total_modEq k' hk') ?_
    rw [List.map_cons, natCast_count_cons]
    grind

/-- Any tokens in the layout are counted on top of some counts, possibly negative ones. -/
theorem exists_extends (hc : c.Stored) : ∀ {tokens : List (Nat × Nat)},
    Within c.vocSize c.topicNum tokens → ∃ base, base.Stored ∧ c.Extends base tokens
  | [], _ => ⟨c, hc, .refl c⟩
  | (w, k) :: tokens, hin => by
    obtain ⟨base, hbase, h⟩ := exists_extends hc fun x hx => hin x (List.mem_cons_of_mem _ hx)
    obtain ⟨hw, hk⟩ := hin (w, k) List.mem_cons_self
    rw [h.vocSize_eq] at hw
    rw [h.topicNum_eq] at hk
    exact ⟨base.decrement w k, stored_addTokens hbase, h.decrement_base hw hk⟩

/-- The row of a word grows by the occurrences of the word. -/
theorem Extends.row_sum (h : c.Extends base tokens) (hin : Within base.vocSize base.topicNum tokens)
    (hw : w < base.vocSize) :
    (c.row? w).map Arithmetic.sum = (base.row? w).map fun row =>
      signed (Arithmetic.sum row + ((tokens.map Prod.fst).count w : Int)) := by
  have hle : w ≤ base.vocSize := Nat.le_of_lt hw
  rw [row?_eq (by rwa [h.vocSize_eq]), row?_eq hle, h.topicNum_eq, Option.map_some, Option.map_some,
    ← sum_count_topics hin, Option.some.injEq, Arithmetic.sum_eq, Arithmetic.sum_eq,
    Arithmetic.signed_eq_signed_iff]
  refine Int.ModEq.trans ?_ ((Arithmetic.signed_modEq _).symm.add_right _)
  rw [← List.sum_map_add]
  exact Arithmetic.modEq_sum_map fun k hk => h.entry_modEq w hw k (List.mem_range.1 hk)

/-- The totals grow by the number of tokens. -/
theorem Extends.tokenCount (h : c.Extends base tokens)
    (hin : Within base.vocSize base.topicNum tokens) :
    c.tokenCount = signed (base.tokenCount + tokens.length) := by
  rw [tokenCount_eq, tokenCount_eq, h.vocSize_eq, h.topicNum_eq, ← sum_count_snd hin,
    Arithmetic.signed_eq_signed_iff]
  refine Int.ModEq.trans ?_ ((Arithmetic.signed_modEq _).symm.add_right _)
  rw [← List.sum_map_add]
  exact Arithmetic.modEq_sum_map fun k hk => h.total_modEq k (List.mem_range.1 hk)

/-- The sum of a column grows as its total does. -/
theorem Extends.column_sum (h : c.Extends base tokens)
    (hin : Within base.vocSize base.topicNum tokens) (hk : k < base.topicNum) :
    ((List.range base.vocSize).map fun w => c.value w k).sum ≡
      ((List.range base.vocSize).map fun w => base.value w k).sum +
        (tokens.map Prod.snd).count k [ZMOD modulus] := by
  rw [← sum_count_words hin, ← List.sum_map_add]
  exact Arithmetic.modEq_sum_map fun w hw => h.entry_modEq w (List.mem_range.1 hw) k hk

/-- Tokens on top of counts leave the totals as consistent as they are. -/
theorem Extends.isConsistent (h : c.Extends base tokens)
    (hin : Within base.vocSize base.topicNum tokens) (hc : c.Stored) (hbase : base.Stored) :
    c.isConsistent = base.isConsistent := by
  rw [Bool.eq_iff_iff, isConsistent_iff, isConsistent_iff, h.vocSize_eq, h.topicNum_eq]
  refine forall₂_congr fun k hk => ?_
  have htotal := stored_iff.1 hc base.vocSize k ⟨h.vocSize_eq.ge, h.topicNum_eq ▸ hk⟩
  have htotal' := stored_iff.1 hbase base.vocSize k ⟨Nat.le_refl _, hk⟩
  rw [← htotal, ← htotal', Arithmetic.signed_eq_signed_iff, Arithmetic.signed_eq_signed_iff]
  have hcolumn := h.column_sum hin hk
  have htotal := h.total_modEq k hk
  constructor
  · intro heq
    exact Int.ModEq.add_right_cancel' _ (hcolumn.symm.trans (heq.trans htotal))
  · intro heq
    exact hcolumn.trans ((heq.add_right _).trans htotal.symm)

end

/-! ### Exactly some tokens -/

section
variable [Arithmetic] {base : Counts} {V K : Nat} {tokens tokens' : List (Nat × Nat)}

theorem Tallies.value_entry (h : c.Tallies V K tokens) (hw : w < V) (hk : k < K) :
    c.value w k = signed (tokens.count (w, k)) := by
  rw [value, h.entry w hw k hk]; rfl

theorem Tallies.value_total (h : c.Tallies V K tokens) (hk : k < K) :
    c.value V k = signed ((tokens.map Prod.snd).count k) := by
  have := h.total k hk
  rw [total?_eq (by rw [h.topicNum_eq]; exact hk), h.vocSize_eq] at this
  exact Option.some.inj this

theorem Tallies.of_value (hv : c.vocSize = V) (hk : c.topicNum = K)
    (he : ∀ w < V, ∀ k < K, c.value w k = signed (tokens.count (w, k)))
    (ht : ∀ k < K, c.value V k = signed ((tokens.map Prod.snd).count k)) :
    c.Tallies V K tokens where
  vocSize_eq := hv
  topicNum_eq := hk
  entry w hw k hk' := by rw [entry?_eq ⟨by omega, by omega⟩, he w hw k hk']
  total k hk' := by rw [total?_eq (by omega), hv, ht k hk']

/-- Each value is what is stored of some number of the tokens. -/
theorem Tallies.exists_value (h : c.Tallies V K tokens) (hr : c.InRange w k) :
    ∃ n ≤ tokens.length, c.value w k = signed n := by
  have hk : k < K := h.topicNum_eq ▸ hr.2
  by_cases hw : w < V
  · exact ⟨_, List.count_le_length, h.value_entry hw hk⟩
  · obtain rfl : w = V := by
      have hle := hr.1
      have hV := h.vocSize_eq
      omega
    exact ⟨_, by simpa using List.count_le_length (l := tokens.map Prod.snd), h.value_total hk⟩

theorem Tallies.stored (h : c.Tallies V K tokens) : c.Stored := by
  refine stored_iff.2 fun w k hr => ?_
  obtain ⟨n, -, hvalue⟩ := h.exists_value hr
  rw [hvalue, Arithmetic.signed_signed]

theorem Extends.tallies (h : c.Extends (zeros V K) tokens) (hc : c.Stored) :
    c.Tallies V K tokens := by
  refine .of_value h.vocSize_eq h.topicNum_eq (fun w hw k hk => ?_) fun k hk => ?_
  · have hentry := h.entry_modEq w hw k hk
    rw [value_zeros, Int.zero_add] at hentry
    exact Arithmetic.eq_signed_of_modEq
      (stored_iff.1 hc w k ⟨h.vocSize_eq ▸ hw.le, h.topicNum_eq ▸ hk⟩) hentry
  · have htotal := h.total_modEq k hk
    rw [value_zeros, Int.zero_add] at htotal
    exact Arithmetic.eq_signed_of_modEq
      (stored_iff.1 hc V k ⟨h.vocSize_eq.ge, h.topicNum_eq ▸ hk⟩) htotal

/-- Tokens on top of the counts of others are counted with them. -/
theorem Extends.tallies_append (h : c.Extends base tokens) (hb : base.Tallies V K tokens')
    (hc : c.Stored) : c.Tallies V K (tokens ++ tokens') := by
  refine Extends.tallies ⟨h.vocSize_eq.trans hb.vocSize_eq, h.topicNum_eq.trans hb.topicNum_eq,
    fun w hw k hk => ?_, fun k hk => ?_⟩ hc
  · have hentry := h.entry_modEq w (by rwa [hb.vocSize_eq]) k (by rwa [hb.topicNum_eq])
    rw [hb.value_entry hw hk] at hentry
    refine (hentry.trans ((Arithmetic.signed_modEq _).add_right _)).trans ?_
    rw [value_zeros, Int.zero_add, List.count_append, Nat.cast_add, Int.add_comm]
  · have htotal := h.total_modEq k (by rwa [hb.topicNum_eq])
    rw [hb.vocSize_eq, hb.value_total hk] at htotal
    refine (htotal.trans ((Arithmetic.signed_modEq _).add_right _)).trans ?_
    rw [value_zeros, Int.zero_add, List.map_append, List.count_append, Nat.cast_add, Int.add_comm]

/-- Counts of tokens extend the counts of some of them by the others. -/
theorem Tallies.extends (h : c.Tallies V K (tokens ++ tokens')) (hb : base.Tallies V K tokens') :
    c.Extends base tokens where
  vocSize_eq := by rw [h.vocSize_eq, hb.vocSize_eq]
  topicNum_eq := by rw [h.topicNum_eq, hb.topicNum_eq]
  entry_modEq w hw k hk := by
    rw [hb.vocSize_eq] at hw
    rw [hb.topicNum_eq] at hk
    rw [h.value_entry hw hk, hb.value_entry hw hk, List.count_append, Nat.cast_add, Int.add_comm]
    exact (Arithmetic.signed_modEq _).trans ((Arithmetic.signed_modEq _).symm.add_right _)
  total_modEq k hk := by
    rw [hb.topicNum_eq] at hk
    rw [hb.vocSize_eq, h.value_total hk, hb.value_total hk, List.map_append, List.count_append,
      Nat.cast_add, Int.add_comm]
    exact (Arithmetic.signed_modEq _).trans ((Arithmetic.signed_modEq _).symm.add_right _)

/-- Only one table counts given tokens. -/
theorem Tallies.unique (hc : c.Tallies V K tokens) (hd : d.Tallies V K tokens) : c = d := by
  refine ext_value (by rw [hc.vocSize_eq, hd.vocSize_eq]) (by rw [hc.topicNum_eq, hd.topicNum_eq])
    fun w k hr => ?_
  rw [InRange, hc.vocSize_eq, hc.topicNum_eq] at hr
  rcases Nat.lt_or_eq_of_le hr.1 with hw | rfl
  · rw [hc.value_entry hw hr.2, hd.value_entry hw hr.2]
  · rw [hc.value_total hr.2, hd.value_total hr.2]

theorem tallies_zeros (V K : Nat) : (zeros V K).Tallies V K [] :=
  .of_value rfl rfl (by simp) (by simp)

theorem Tallies.extends_zeros (h : c.Tallies V K tokens) : c.Extends (zeros V K) tokens := by
  rw [← List.append_nil tokens] at h
  exact h.extends (tallies_zeros V K)

theorem Tallies.perm (h : c.Tallies V K tokens) (hp : tokens.Perm tokens') :
    c.Tallies V K tokens' where
  vocSize_eq := h.vocSize_eq
  topicNum_eq := h.topicNum_eq
  entry w hw k hk := by rw [h.entry w hw k hk, hp.count_eq]
  total k hk := by rw [h.total k hk, (hp.map Prod.snd).count_eq]

/-- One more token. -/
theorem Tallies.increment (h : c.Tallies V K tokens) (hw : w < V) (hk : k < K) :
    (c.increment w k).Tallies V K ((w, k) :: tokens) :=
  (h.extends_zeros.increment hw hk).tallies (stored_addTokens h.stored)

/-- The sum of the counts of two lists of tokens counts them together. -/
theorem Tallies.add? (hc : c.Tallies V K tokens) (hd : d.Tallies V K tokens') :
    ∃ e, c.add? d = some e ∧ e.Tallies V K (tokens ++ tokens') := by
  have hcv := hc.vocSize_eq
  have hck := hc.topicNum_eq
  obtain ⟨e, he, hv, hk⟩ := add?_eq_some (c := c) (d := d) (by rw [hcv, hd.vocSize_eq])
    (by rw [hck, hd.topicNum_eq])
  refine ⟨e, he, .of_value (by omega) (by omega) (fun w hw k hk => ?_) (fun k hk => ?_)⟩
  · rw [value_add? he ⟨by omega, by omega⟩, hc.value_entry hw hk, hd.value_entry hw hk,
      List.count_append, Nat.cast_add, Arithmetic.signed_add_left, Arithmetic.signed_add_right]
  · rw [value_add? he ⟨by omega, by omega⟩, hc.value_total hk, hd.value_total hk, List.map_append,
      List.count_append, Nat.cast_add, Arithmetic.signed_add_left, Arithmetic.signed_add_right]

/-- No entry is negative. -/
theorem Tallies.nonneg (h : c.Tallies V K tokens) (hroom : Arithmetic.HasRoom tokens.length) :
    ∀ n ∈ c.flat, 0 ≤ n := by
  intro n hn
  obtain ⟨i, hi, rfl⟩ := Array.mem_iff_getElem.1 hn
  obtain ⟨w, k, hr, rfl⟩ := exists_index hi
  have hvalue := value_eq hr
  rw [Array.getElem?_eq_getElem hi, Option.some.injEq] at hvalue
  obtain ⟨m, hle, hm⟩ := h.exists_value hr
  rw [hvalue, hm, hroom.mono hle]
  exact Int.natCast_nonneg m

/-- The row of a word sums to the occurrences of the word. -/
theorem Tallies.row_sum (h : c.Tallies V K tokens) (hroom : Arithmetic.HasRoom tokens.length)
    (hin : Within V K tokens) (hw : w < V) :
    (c.row? w).map List.sum = some ((tokens.map Prod.fst).count w : Int) := by
  have hle : w ≤ c.vocSize := by rw [h.vocSize_eq]; exact hw.le
  rw [row?_eq hle, h.topicNum_eq, Option.map_some, ← sum_count_topics hin]
  exact congrArg (some ∘ List.sum) (List.map_congr_left fun k hk =>
    (h.value_entry hw (List.mem_range.1 hk)).trans (hroom.mono List.count_le_length))

/-- The totals are the sums of the columns. -/
theorem Tallies.isConsistent (h : c.Tallies V K tokens) (hin : Within V K tokens) :
    c.isConsistent = true := by
  rw [h.extends_zeros.isConsistent hin h.stored (tallies_zeros V K).stored, isConsistent_iff]
  simp

end

end Counts

end TopicModel
