import TopicModel.Proofs.Broadcast
import TopicModel.Proofs.Counts

/-!
# One table behind every view of counts

A table gives the entry of each word and topic, the totals as the entries of the word `vocSize`.
`Counts.Shows c V K table`: everything that can be read off the counts `c` is read off the table,
the flat form and its entries, the rows, the columns, the totals, their sum and the consistency.
The values of the entries are enough for it (`Shows.of_value`).

`Counts.Edit` is a change to counts. Its effect on the flat form, `Counts.edit`, is that on the
table, `Edit.onTable`: an edit of a table that is shown succeeds and the edited table is shown
(`Shows.edit`), and so through any sequence of edits (`Shows.editAll`).

A token more or less is a `Counts.Shift`, which leaves the consistency alone (`shift_increment`,
`shift_decrement`).

Everything holds in any arithmetic, of counts whose entries have room (`Counts.Stored`), as edits
leave them (`stored_editAll`).
-/

namespace TopicModel

open Arithmetic (signed)

namespace Counts

section
variable [Arithmetic] {c d : Counts} {V K w k : Nat} {table : Nat → Nat → Int}

/-! ## Views -/

/-- All that can be read off the counts is read off the table. -/
structure Shows (c : Counts) (vocSize topicNum : Nat) (table : Nat → Nat → Int) : Prop where
  shape : c.HasShape vocSize topicNum
  flat : ∀ w ≤ vocSize, ∀ k < topicNum, c.flat[w * topicNum + k]? = some (table w k)
  entry : ∀ w ≤ vocSize, ∀ k < topicNum, c.entry? w k = some (table w k)
  row : ∀ w ≤ vocSize, c.row? w = some ((List.range topicNum).map (table w))
  column : ∀ k < topicNum, c.column? k = some ((List.range vocSize).map fun w => table w k)
  total : ∀ k < topicNum, c.total? k = some (table vocSize k)
  totals : c.totals = (List.range topicNum).map (table vocSize)
  tokenCount : c.tokenCount = signed ((List.range topicNum).map (table vocSize)).sum
  isConsistent : c.isConsistent = true ↔
    ∀ k < topicNum, signed ((List.range vocSize).map fun w => table w k).sum = table vocSize k

/-- Each view is made of the values of entries. -/
theorem Shows.of_value (hs : c.HasShape V K)
    (h : ∀ w ≤ V, ∀ k < K, c.value w k = table w k) : c.Shows V K table := by
  obtain ⟨rfl, rfl⟩ := hs
  have hrow : ∀ w ≤ c.vocSize, (List.range c.topicNum).map (c.value w) =
      (List.range c.topicNum).map (table w) := fun w hw =>
    List.map_congr_left fun k hk => h w hw k (List.mem_range.1 hk)
  have hcolumn : ∀ k < c.topicNum, ((List.range c.vocSize).map fun w => c.value w k) =
      (List.range c.vocSize).map fun w => table w k := fun k hk =>
    List.map_congr_left fun w hw => h w (List.mem_range.1 hw).le k hk
  constructor
  case shape => exact ⟨rfl, rfl⟩
  case flat =>
    intro w hw k hk
    exact (value_eq ⟨hw, hk⟩).trans (congrArg some (h w hw k hk))
  case entry =>
    intro w hw k hk
    rw [entry?_eq ⟨hw, hk⟩, h w hw k hk]
  case row =>
    intro w hw
    exact (row?_eq hw).trans (congrArg some (hrow w hw))
  case column =>
    intro k hk
    rw [column?_eq hk, hcolumn k hk]
  case total =>
    intro k hk
    rw [total?_eq hk, h _ (Nat.le_refl _) k hk]
  case totals => rw [totals_eq, hrow _ (Nat.le_refl _)]
  case tokenCount =>
    rw [tokenCount_eq]
    exact congrArg (signed ∘ List.sum) (hrow _ (Nat.le_refl _))
  case isConsistent =>
    rw [isConsistent_iff]
    refine forall₂_congr fun k hk => ?_
    rw [hcolumn k hk, h _ (Nat.le_refl _) k hk]

theorem Shows.value (h : c.Shows V K table) (hw : w ≤ V) (hk : k < K) :
    c.value w k = table w k := by
  rw [Counts.value, h.entry w hw k hk]
  rfl

theorem Shows.inRange (h : c.Shows V K table) (hw : w ≤ V) (hk : k < K) : c.InRange w k := by
  obtain ⟨hv, ht⟩ := h.shape
  exact ⟨hv ▸ hw, ht ▸ hk⟩

/-- The table of a flat form. -/
def tableOf (topicNum : Nat) (flat : Array Int) (word topic : Nat) : Int :=
  flat.getD (word * topicNum + topic) 0

theorem shows_value (h : c.HasShape V K) : c.Shows V K c.value :=
  .of_value h fun _ _ _ _ => rfl

/-- Counts show the table of their flat form. -/
theorem shows_tableOf (c : Counts) : c.Shows c.vocSize c.topicNum (tableOf c.topicNum c.flat) := by
  refine .of_value ⟨rfl, rfl⟩ fun w hw k hk => ?_
  have hvalue : c.flat[w * c.topicNum + k]? = some (c.value w k) := value_eq ⟨hw, hk⟩
  rw [tableOf, Array.getD_eq_getD_getElem?, hvalue]
  rfl

omit [Arithmetic] in
/-- The flat form of counts makes the same counts. -/
theorem ofFlat_flat {α : Type} (h : c.HasShape V K) :
    (ofFlat V K c.flat : Except (Error α) Counts) = .ok c := by
  obtain ⟨rfl, rfl⟩ := h
  exact dif_pos c.size_flat

/-! ## Edits -/

/-- A change to counts: a token of a word put to a topic or taken from it, an entry of a word, or of
the totals, overwritten, or other counts added. -/
inductive Edit where
  | increment (word topic : Nat)
  | decrement (word topic : Nat)
  | write (word topic : Nat) (value : Int)
  | add (other : Counts)

/-- The edit stays in the layout: tokens are of words below the totals, and a number that is
written has room. -/
def Edit.Fits (vocSize topicNum : Nat) : Edit → Prop
  | increment word topic => word < vocSize ∧ topic < topicNum
  | decrement word topic => word < vocSize ∧ topic < topicNum
  | write word topic value => (word ≤ vocSize ∧ topic < topicNum) ∧ signed value = value
  | add other => other.HasShape vocSize topicNum

instance (vocSize topicNum : Nat) : ∀ x : Edit, Decidable (x.Fits vocSize topicNum)
  | .increment _ _ => inferInstanceAs (Decidable (_ ∧ _))
  | .decrement _ _ => inferInstanceAs (Decidable (_ ∧ _))
  | .write _ _ _ => inferInstanceAs (Decidable (_ ∧ _))
  | .add other => inferInstanceAs (Decidable (other.HasShape vocSize topicNum))

def edit (c : Counts) : Edit → Option Counts
  | .increment word topic => some (c.increment word topic)
  | .decrement word topic => some (c.decrement word topic)
  | .write word topic value => some (c.set word topic value)
  | .add other => c.add? other

def editAll (c : Counts) (edits : List Edit) : Option Counts := edits.foldlM edit c

/-- A number added to an entry of a table and to the total of its topic. -/
def shiftTable (vocSize word topic : Nat) (n : Int) (table : Nat → Nat → Int) (w k : Nat) : Int :=
  if (w = word ∨ w = vocSize) ∧ k = topic then signed (table w k + n) else table w k

/-- What an edit does to a table. -/
def Edit.onTable (vocSize : Nat) (table : Nat → Nat → Int) : Edit → Nat → Nat → Int
  | increment word topic => shiftTable vocSize word topic 1 table
  | decrement word topic => shiftTable vocSize word topic (-1) table
  | write word topic value => fun w k => if w = word ∧ k = topic then value else table w k
  | add other => fun w k => signed (table w k + other.value w k)

theorem Shows.addTokens (h : c.Shows V K table) (hw : w < V) (hk : k < K) (n : Int) :
    (c.addTokens w k n).Shows V K (shiftTable V w k n table) := by
  obtain ⟨hv, ht⟩ := h.shape
  refine .of_value ⟨(vocSize_addTokens ..).trans hv, (topicNum_addTokens ..).trans ht⟩
    fun w' hw' k' hk' => ?_
  rw [value_addTokens (by omega) (by omega) (h.inRange hw' hk'), h.value hw' hk', hv, shiftTable]

theorem Shows.set (h : c.Shows V K table) (hw : w ≤ V) (hk : k < K) (value : Int) :
    (c.set w k value).Shows V K fun w' k' => if w' = w ∧ k' = k then value else table w' k' := by
  have hin := h.inRange hw hk
  rw [Counts.set, if_pos hin]
  refine .of_value h.shape fun w' hw' k' hk' => ?_
  rw [value_modifyFlat hin (h.inRange hw' hk'), h.value hw' hk']

theorem Shows.add? (h : c.Shows V K table) (hd : d.HasShape V K) :
    ∃ e, c.add? d = some e ∧ e.Shows V K fun w k => signed (table w k + d.value w k) := by
  obtain ⟨hv, ht⟩ := h.shape
  obtain ⟨e, he, hev, het⟩ := add?_eq_some (hv.trans hd.1.symm) (ht.trans hd.2.symm)
  refine ⟨e, he, .of_value ⟨hev.trans hv, het.trans ht⟩ fun w hw k hk => ?_⟩
  rw [value_add? he (h.inRange hw hk), h.value hw hk]

/-- An edit that fits succeeds, and the edited table is shown. -/
theorem Shows.edit (h : c.Shows V K table) {x : Edit} (hx : x.Fits V K) :
    ∃ d, c.edit x = some d ∧ d.Shows V K (x.onTable V table) := by
  cases x with
  | increment w k => exact ⟨_, rfl, h.addTokens hx.1 hx.2 1⟩
  | decrement w k => exact ⟨_, rfl, h.addTokens hx.1 hx.2 (-1)⟩
  | write w k value => exact ⟨_, rfl, h.set hx.1.1 hx.1.2 value⟩
  | add other => exact h.add? hx

/-- So does any sequence of edits. -/
theorem Shows.editAll : ∀ {edits : List Edit} {c : Counts} {table : Nat → Nat → Int},
    c.Shows V K table → (∀ x ∈ edits, x.Fits V K) →
    ∃ d, c.editAll edits = some d ∧ d.Shows V K (edits.foldl (Edit.onTable V) table)
  | [], c, _, h, _ => ⟨c, rfl, h⟩
  | x :: edits, c, _, h, hfit => by
    obtain ⟨hx, hrest⟩ := List.forall_mem_cons.1 hfit
    obtain ⟨d, hd, hshown⟩ := h.edit hx
    obtain ⟨e, he, hend⟩ := Shows.editAll hshown hrest
    refine ⟨e, ?_, hend⟩
    rw [Counts.editAll, List.foldlM_cons, hd]
    exact he

/-- An edit leaves numbers that have room. -/
theorem stored_edit {x : Edit} (hc : c.Stored) (hs : c.HasShape V K) (hx : x.Fits V K)
    (h : c.edit x = some d) : d.Stored := by
  obtain ⟨rfl, rfl⟩ := hs
  cases x with
  | increment w k =>
    cases h
    exact stored_addTokens hc
  | decrement w k =>
    cases h
    exact stored_addTokens hc
  | write w k value =>
    cases h
    obtain ⟨hr, hvalue⟩ := hx
    rw [Counts.set, if_pos (show c.InRange w k from hr), stored_iff]
    intro w' k' hr'
    rw [value_modifyFlat hr hr']
    split
    · exact hvalue
    · exact stored_iff.1 hc w' k' hr'
  | add other => exact stored_add? h

theorem stored_editAll : ∀ {edits : List Edit} {c : Counts} {table : Nat → Nat → Int},
    c.Shows V K table → c.Stored → (∀ x ∈ edits, x.Fits V K) → c.editAll edits = some d → d.Stored
  | [], _, _, _, hc, _, h => by
    cases h
    exact hc
  | x :: edits, c, _, hshown, hc, hfit, h => by
    obtain ⟨hx, hrest⟩ := List.forall_mem_cons.1 hfit
    obtain ⟨e, he, hnext⟩ := hshown.edit hx
    rw [Counts.editAll, List.foldlM_cons, he] at h
    exact stored_editAll hnext (stored_edit hc hshown.shape hx he) hrest h

/-! ## One token more or less -/

/-- One entry and the total of its topic have changed by a number, and nothing else has. -/
structure Shift (c d : Counts) (word topic : Nat) (n : Int) : Prop where
  shape : d.HasShape c.vocSize c.topicNum
  entry : ∀ w k, d.entry? w k = (c.entry? w k).map fun x =>
    if (w = word ∨ w = c.vocSize) ∧ k = topic then signed (x + n) else x
  isConsistent : d.isConsistent = c.isConsistent
  tokenCount : d.tokenCount = signed (c.tokenCount + n)

theorem shift_addTokens {word topic : Nat} {n : Int} (hw : word < c.vocSize)
    (hk : topic < c.topicNum)
    (hconsistent : (c.addTokens word topic n).isConsistent = c.isConsistent)
    (htokens : (c.addTokens word topic n).tokenCount = signed (c.tokenCount + n)) :
    c.Shift (c.addTokens word topic n) word topic n where
  shape := ⟨vocSize_addTokens .., topicNum_addTokens ..⟩
  entry w k := entry?_map
    (f := fun x => if (w = word ∨ w = c.vocSize) ∧ k = topic then signed (x + n) else x)
    (vocSize_addTokens ..) (topicNum_addTokens ..) (value_addTokens hw hk)
  isConsistent := hconsistent
  tokenCount := htokens

theorem shift_increment (hc : c.Stored) (hw : w < c.vocSize) (hk : k < c.topicNum) :
    c.Shift (c.increment w k) w k 1 := by
  have hext := (Extends.refl c).increment hw hk
  have hin : Within c.vocSize c.topicNum [(w, k)] := by simp [Within, hw, hk]
  exact shift_addTokens hw hk (hext.isConsistent hin (stored_addTokens hc) hc)
    (hext.tokenCount hin)

theorem shift_decrement (hc : c.Stored) (hw : w < c.vocSize) (hk : k < c.topicNum) :
    c.Shift (c.decrement w k) w k (-1) := by
  -- the counts are those without the token, and the token on top of them
  have hext := (Extends.refl c).decrement_base hw hk
  have hin : Within (c.decrement w k).vocSize (c.decrement w k).topicNum [(w, k)] := by
    simp [Within, decrement, hw, hk]
  have htokens : (c.decrement w k).tokenCount = signed (c.tokenCount + -1) := by
    rw [hext.tokenCount hin, List.length_singleton, Nat.cast_one, Arithmetic.signed_add_left,
      add_neg_cancel_right, signed_tokenCount]
  exact shift_addTokens hw hk
    (hext.isConsistent hin hc (stored_addTokens hc)).symm htokens

theorem decrement_increment (hc : c.Stored) (hw : w < c.vocSize) (hk : k < c.topicNum) :
    (c.increment w k).decrement w k = c := by
  have hv : (c.increment w k).vocSize = c.vocSize := vocSize_addTokens ..
  have ht : (c.increment w k).topicNum = c.topicNum := topicNum_addTokens ..
  refine ext_value ((vocSize_addTokens ..).trans hv) ((topicNum_addTokens ..).trans ht)
    fun w' k' hin => ?_
  have hin : c.InRange w' k' := by
    rwa [decrement, inRange_addTokens, increment, inRange_addTokens] at hin
  have hin' : (c.increment w k).InRange w' k' := by rwa [increment, inRange_addTokens]
  rw [decrement, value_addTokens (by rwa [hv]) (by rwa [ht]) hin', hv, increment,
    value_addTokens hw hk hin]
  split
  · rw [Arithmetic.signed_add_left, add_neg_cancel_right]
    exact stored_iff.1 hc w' k' hin
  · rfl

/-! ## Sums -/

/-- Tokens add up, and consistent counts leave the consistency of those they are added to alone. -/
theorem add?_sums (hc : c.Stored) (hd : d.HasShape c.vocSize c.topicNum) :
    ∃ e, c.add? d = some e ∧ e.tokenCount = signed (c.tokenCount + d.tokenCount) ∧
      (d.isConsistent = true → e.isConsistent = c.isConsistent) := by
  have hstart := shows_value (c := c) ⟨rfl, rfl⟩
  have hother := shows_value hd
  obtain ⟨e, he, hsum⟩ := hstart.add? hd
  refine ⟨e, he, ?_, fun hconsistent => ?_⟩
  · rw [hsum.tokenCount, hstart.tokenCount, hother.tokenCount, Arithmetic.signed_add_left,
      Arithmetic.signed_add_right, ← List.sum_map_add, Arithmetic.signed_eq_signed_iff]
    exact Arithmetic.modEq_sum_map fun k _ => Arithmetic.signed_modEq _
  · rw [Bool.eq_iff_iff, hsum.isConsistent, hstart.isConsistent]
    refine forall₂_congr fun k hk => ?_
    have htotal := stored_iff.1 hc c.vocSize k ⟨Nat.le_refl _, hk⟩
    have hcolumn : ((List.range c.vocSize).map fun w => signed (c.value w k + d.value w k)).sum ≡
        ((List.range c.vocSize).map fun w => c.value w k).sum + d.value c.vocSize k
          [ZMOD Arithmetic.modulus] := by
      have hsums := Arithmetic.modEq_sum_map (l := List.range c.vocSize) fun w _ =>
        Arithmetic.signed_modEq (c.value w k + d.value w k)
      rw [List.sum_map_add] at hsums
      rw [← hother.isConsistent.1 hconsistent k hk]
      exact hsums.trans ((Arithmetic.signed_modEq _).symm.add_left _)
    rw [Arithmetic.signed_eq_signed_iff, ← htotal, Arithmetic.signed_eq_signed_iff]
    constructor
    · intro heq
      refine Int.ModEq.add_right_cancel' _ (hcolumn.symm.trans (heq.trans ?_))
      exact (Arithmetic.signed_modEq _).add_right _
    · intro heq
      refine hcolumn.trans ((heq.add_right _).trans ?_)
      exact (Arithmetic.signed_modEq _).symm.add_right _

/-! ## Any sequence of edits -/

end

end Counts

end TopicModel
