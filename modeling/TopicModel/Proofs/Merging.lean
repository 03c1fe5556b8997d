import Mathlib
import TopicModel.Proofs.Broadcast
import TopicModel.Proofs.Tally
import TopicModel.Worker

/-!
# Tallies of any shape

Nothing is assumed here of the tallies that are added to: they may hold counts of any shape, and of
any sign. A document is gathered with all its tokens or leaves the tally as it is
(`Tally.addDocument_spec`), and so does a merge, which is refused just if both tallies hold counts
and their shapes differ (`Tally.merge_spec`).

Adding tallies is associative where a sum exists and where none does (`Tally.add?_assoc`), and the
empty tally is neutral. So a list of tallies has at most one sum, `Tally.total?`, whichever way it
is formed: merged one after the other from nothing, added up from the first, or in any bracketing,
which is a `Summing`. It exists just if the tallies fit one shape (`Tally.total?_ok_iff`).
-/

namespace TopicModel

open Arithmetic (modulus signed)

section
variable [Arithmetic]

/-! ## Sums of counts -/

namespace Counts

variable {c d e : Counts}

theorem add?_eq_none (h : ¬ c.HasShape d.vocSize d.topicNum) : c.add? d = none := dif_neg h

theorem hasShape_add? (h : c.add? d = some e) :
    c.HasShape d.vocSize d.topicNum ∧ e.HasShape c.vocSize c.topicNum := by
  by_cases hs : c.HasShape d.vocSize d.topicNum
  · obtain ⟨e', he', hv, hk⟩ := add?_eq_some hs.1 hs.2
    rw [he'] at h
    cases h
    exact ⟨hs, hv, hk⟩
  · rw [add?_eq_none hs] at h
    cases h

/-- Three counts have a sum in both bracketings or in none. -/
theorem add?_assoc (c d e : Counts) :
    ((c.add? d).bind fun x => x.add? e) = (d.add? e).bind fun x => c.add? x := by
  by_cases hcd : c.HasShape d.vocSize d.topicNum
  · by_cases hde : d.HasShape e.vocSize e.topicNum
    · obtain ⟨x, hx, hxv, hxk⟩ := add?_eq_some hcd.1 hcd.2
      obtain ⟨y, hy, hyv, hyk⟩ := add?_eq_some hde.1 hde.2
      obtain ⟨l, hl, hlv, hlk⟩ := add?_eq_some (hxv.trans (hcd.1.trans hde.1))
        (hxk.trans (hcd.2.trans hde.2))
      obtain ⟨r, hr, hrv, hrk⟩ := add?_eq_some (hcd.1.trans hyv.symm) (hcd.2.trans hyk.symm)
      rw [hx, hy, Option.bind_some, Option.bind_some, hl, hr, Option.some.injEq]
      refine ext_value (by omega) (by omega) fun w k hin => ?_
      have hinx : x.InRange w k := by rwa [InRange, ← hlv, ← hlk]
      have hinc : c.InRange w k := by rwa [InRange, ← hxv, ← hxk]
      have hind : d.InRange w k := by rwa [InRange, ← hcd.1, ← hcd.2]
      rw [value_add? hl hinx, value_add? hx hinc, value_add? hr hinc, value_add? hy hind,
        Arithmetic.signed_add_left, Arithmetic.signed_add_right, Int.add_assoc]
    · -- whatever `c` is, a sum with `d` has the shape of `d`
      rw [add?_eq_none hde, Option.bind_none, Option.bind_eq_none_iff]
      intro x hx
      obtain ⟨hs, hxs⟩ := hasShape_add? hx
      refine add?_eq_none fun hxe => hde ⟨?_, ?_⟩
      · rw [← hs.1, ← hxs.1, hxe.1]
      · rw [← hs.2, ← hxs.2, hxe.2]
  · rw [add?_eq_none hcd, Option.bind_none]
    symm
    rw [Option.bind_eq_none_iff]
    intro x hx
    obtain ⟨-, hxs⟩ := hasShape_add? hx
    refine add?_eq_none fun hcx => hcd ⟨hcx.1.trans hxs.1, hcx.2.trans hxs.2⟩

end Counts

namespace Tally

variable {α : Type} {V K w k : Nat} {t u v r : Tally} {ts us : List Tally}

/-! ## One document -/

/-- A document is gathered with all its tokens, or not at all. -/
theorem addDocument_spec (t : Tally) (d : Document) (assignment : List Nat) (V K : Nat) :
    (∃ e, t.addDocument (α := α) d assignment V K = (.error e, t)) ∨
      ∃ c, t.addDocument (α := α) d assignment V K = (.ok (), ⟨some c⟩) ∧
        c.Extends (t.toCounts V K) (d.assigned assignment) := by
  unfold addDocument
  cases hcheck : checkAssignment (α := α) d assignment V K with
  | error e => exact .inl ⟨_, rfl⟩
  | ok u =>
    obtain ⟨hwords, -, hlt⟩ := checkAssignment_ok_iff.1 hcheck
    dsimp only
    split
    · rename_i hshape
      -- only counts that were there before can have another shape
      obtain ⟨_ | c⟩ := t
      · simp [toCounts, Counts.zeros] at hshape
      · exact .inl ⟨_, rfl⟩
    · rename_i hshape
      obtain ⟨hV, hK⟩ : (t.toCounts V K).vocSize = V ∧ (t.toCounts V K).topicNum = K := by omega
      have hin : Counts.Within (t.toCounts V K).vocSize (t.toCounts V K).topicNum
          (d.assigned assignment) := by
        rw [hV, hK]
        exact Document.within_assigned hwords hlt
      obtain ⟨c, hc, hext⟩ := (Counts.Extends.refl (t.toCounts V K)).incrementAll hin
      refine .inr ⟨c, ?_, hext⟩
      rw [show d.tokens.zip assignment = d.assigned assignment from rfl, hc]
      rfl

/-! ## Sums -/

theorem empty_add? (t : Tally) : empty.add? t = .ok t := by
  obtain ⟨_ | c⟩ := t <;> rfl

theorem add?_empty (t : Tally) : t.add? empty = .ok t := by
  obtain ⟨_ | c⟩ := t <;> rfl

theorem add?_counts (c d : Counts) : (⟨some c⟩ : Tally).add? ⟨some d⟩ =
    match c.add? d with
    | some sum => .ok ⟨some sum⟩
    | none => .error .shapeMismatch := rfl

/-- Three tallies have a sum in both bracketings or in none. -/
theorem add?_assoc (t u v : Tally) :
    (t.add? u >>= fun r => r.add? v) = u.add? v >>= fun r => t.add? r := by
  obtain ⟨_ | c⟩ := t
  · change (empty.add? u >>= _) = u.add? v >>= fun r => empty.add? r
    simp only [empty_add?, Outcome.ok_bind]
    cases u.add? v <;> rfl
  · obtain ⟨_ | d⟩ := u
    · change (Tally.add? ⟨some c⟩ empty >>= _) = empty.add? v >>= _
      rw [add?_empty, empty_add?]
      rfl
    · obtain ⟨_ | e⟩ := v
      · change (Tally.add? ⟨some c⟩ ⟨some d⟩ >>= fun r => r.add? empty) =
          Tally.add? ⟨some d⟩ empty >>= _
        rw [add?_empty ⟨some d⟩, Outcome.ok_bind]
        simp only [add?_empty]
        cases Tally.add? ⟨some c⟩ ⟨some d⟩ <;> rfl
      · have hassoc := Counts.add?_assoc c d e
        rw [add?_counts c d, add?_counts d e]
        rcases hcd : c.add? d with _ | x
        · rcases hde : d.add? e with _ | y
          · rfl
          · rw [hcd, hde, Option.bind_none, Option.bind_some] at hassoc
            simp [add?_counts, ← hassoc]
        · rcases hde : d.add? e with _ | y
          · rw [hcd, hde, Option.bind_none, Option.bind_some] at hassoc
            simp [add?_counts, hassoc]
          · rw [hcd, hde, Option.bind_some, Option.bind_some] at hassoc
            simp [add?_counts, hassoc]

theorem bind_empty_add? (x : Except Fault Tally) : x >>= empty.add? = x := by
  cases x with
  | error f => rfl
  | ok t => exact empty_add? t

/-- There is one way in which a sum does not exist. -/
theorem add?_error {f : Fault} (h : t.add? u = .error f) : f = .shapeMismatch := by
  unfold add? at h
  split at h
  · cases h
  · cases h
  · split at h
    · cases h
    · cases h
      rfl

/-- What a sum fits, both summands fit. -/
theorem add?_fits (h : t.add? u = .ok r) :
    r.FitsShape V K ↔ t.FitsShape V K ∧ u.FitsShape V K := by
  obtain ⟨_ | c⟩ := t
  · change empty.add? u = _ at h
    rw [empty_add?] at h
    cases h
    simp [FitsShape]
  · obtain ⟨_ | d⟩ := u
    · change Tally.add? _ empty = _ at h
      rw [add?_empty] at h
      cases h
      simp [FitsShape]
    · rw [add?_counts] at h
      cases hsum : c.add? d with
      | none =>
        rw [hsum] at h
        cases h
      | some e =>
        rw [hsum] at h
        cases h
        obtain ⟨hs, he⟩ := Counts.hasShape_add? hsum
        simp only [FitsShape, Option.some.injEq, forall_eq', Counts.HasShape, he.1, he.2, hs.1,
          hs.2, and_self]

omit [Arithmetic] in
theorem exists_fits (t : Tally) : ∃ V K, t.FitsShape V K := by
  obtain ⟨_ | c⟩ := t
  · exact ⟨0, 0, by simp [FitsShape]⟩
  · exact ⟨c.vocSize, c.topicNum, by simp [FitsShape, Counts.HasShape]⟩

theorem add?_ok (ht : t.FitsShape V K) (hu : u.FitsShape V K) : ∃ r, t.add? u = .ok r := by
  obtain ⟨_ | c⟩ := t
  · exact ⟨u, empty_add? u⟩
  · obtain ⟨_ | d⟩ := u
    · exact ⟨_, add?_empty _⟩
    · obtain ⟨hcV, hcK⟩ := ht c rfl
      obtain ⟨hdV, hdK⟩ := hu d rfl
      obtain ⟨e, he, -⟩ := Counts.add?_eq_some (hcV.trans hdV.symm) (hcK.trans hdK.symm)
      exact ⟨⟨some e⟩, by rw [add?_counts, he]⟩

/-- A sum holds the sum of what is held for each word and topic. -/
theorem value_add? (ht : t.FitsShape V K) (hu : u.FitsShape V K) (h : t.add? u = .ok r)
    (hw : w ≤ V) (hk : k < K) : (r.toCounts V K).value w k ≡
      (t.toCounts V K).value w k + (u.toCounts V K).value w k [ZMOD modulus] := by
  obtain ⟨_ | c⟩ := t
  · change empty.add? u = _ at h
    rw [empty_add?] at h
    cases h
    simp [toCounts]
  · obtain ⟨_ | d⟩ := u
    · change Tally.add? _ empty = _ at h
      rw [add?_empty] at h
      cases h
      simp [toCounts]
    · rw [add?_counts] at h
      cases hsum : c.add? d with
      | none =>
        rw [hsum] at h
        cases h
      | some e =>
        rw [hsum] at h
        cases h
        obtain ⟨rfl, rfl⟩ := ht c rfl
        exact (Counts.value_add? hsum ⟨hw, hk⟩).symm ▸ Arithmetic.signed_modEq _

/-- The counts of a tally have room. -/
def Stored (t : Tally) : Prop := ∀ c, t.counts = some c → c.Stored

theorem stored_add? (ht : t.Stored) (hu : u.Stored) (h : t.add? u = .ok r) : r.Stored := by
  obtain ⟨_ | c⟩ := t
  · change empty.add? u = _ at h
    rw [empty_add?] at h
    cases h
    exact hu
  · obtain ⟨_ | d⟩ := u
    · change Tally.add? _ empty = _ at h
      rw [add?_empty] at h
      cases h
      exact ht
    · rw [add?_counts] at h
      cases hsum : c.add? d with
      | none =>
        rw [hsum] at h
        cases h
      | some e =>
        rw [hsum] at h
        cases h
        rintro _ ⟨⟩
        exact Counts.stored_add? hsum

theorem stored_value (ht : t.Stored) (hfits : t.FitsShape V K) (hw : w ≤ V) (hk : k < K) :
    signed ((t.toCounts V K).value w k) = (t.toCounts V K).value w k := by
  obtain ⟨_ | c⟩ := t
  · simp [toCounts]
  · obtain ⟨rfl, rfl⟩ := hfits c rfl
    exact Counts.stored_iff.1 (ht c rfl) w k ⟨hw, hk⟩

/-- A merge gives the sum, or is refused because the shapes differ and changes nothing. -/
theorem merge_spec (t u : Tally) :
    (∃ r, t.add? u = .ok r ∧ t.merge (α := α) u = (.ok (), r)) ∨
      ∃ c d, t.counts = some c ∧ u.counts = some d ∧ ¬ c.HasShape d.vocSize d.topicNum ∧
        t.merge (α := α) u =
          (.error (.modelShape c.vocSize c.topicNum c.flat.size d.flat.size), t) := by
  cases hadd : t.add? u with
  | ok r => exact .inl ⟨r, rfl, merge_of_add? hadd⟩
  | error f =>
    obtain ⟨_ | c⟩ := t
    · change empty.add? u = _ at hadd
      rw [empty_add?] at hadd
      cases hadd
    · obtain ⟨_ | d⟩ := u
      · change Tally.add? _ empty = _ at hadd
        rw [add?_empty] at hadd
        cases hadd
      · refine .inr ⟨c, d, rfl, rfl, fun hs => ?_, by rw [merge, hadd]⟩
        obtain ⟨e, he, -⟩ := Counts.add?_eq_some hs.1 hs.2
        rw [add?_counts, he] at hadd
        cases hadd

/-! ## The sum of a list -/

/-- The sum of tallies, each added to the sum of those behind it. -/
def total? : List Tally → Except Fault Tally
  | [] => .ok empty
  | t :: ts => total? ts >>= t.add?

/-- The tallies that hold counts have one shape. -/
def Alike (ts : List Tally) : Prop := ∃ V K, ∀ t ∈ ts, t.FitsShape V K

theorem total?_error {f : Fault} (h : total? ts = .error f) : f = .shapeMismatch := by
  induction ts with
  | nil => cases h
  | cons t ts ih =>
    rcases Outcome.bind_eq_error_iff.1 h with hrest | ⟨r, -, hsum⟩
    · exact ih hrest
    · exact add?_error hsum

theorem total?_append (ts us : List Tally) :
    total? (ts ++ us) = total? ts >>= fun r => total? us >>= r.add? := by
  induction ts with
  | nil => exact (bind_empty_add? _).symm
  | cons t ts ih =>
    rw [List.cons_append, total?, ih, total?]
    cases hts : total? ts with
    | error f => rfl
    | ok r =>
      simp only [Outcome.ok_bind]
      cases hus : total? us with
      | error f =>
        obtain rfl := total?_error hus
        cases hsum : t.add? r with
        | error f =>
          obtain rfl := add?_error hsum
          rfl
        | ok s => rfl
      | ok s => exact (add?_assoc t r s).symm

/-- Adding one after the other. -/
theorem foldlM_add? (ts : List Tally) (t : Tally) :
    ts.foldlM add? t = total? ts >>= t.add? := by
  induction ts generalizing t with
  | nil => exact (add?_empty t).symm
  | cons u ts ih =>
    rw [List.foldlM_cons, total?]
    simp only [ih]
    cases hts : total? ts with
    | error f =>
      obtain rfl := total?_error hts
      cases hsum : t.add? u with
      | error f =>
        obtain rfl := add?_error hsum
        rfl
      | ok s => rfl
    | ok r => exact add?_assoc t u r

theorem sum?_eq_total? (ts : List Tally) : sum? ts = total? ts := by
  cases ts with
  | nil => rfl
  | cons t ts => exact foldlM_add? ts t

/-- What the sum of a list fits, all its members fit. -/
theorem total?_fits (h : total? ts = .ok r) :
    r.FitsShape V K ↔ ∀ t ∈ ts, t.FitsShape V K := by
  induction ts generalizing r with
  | nil =>
    cases h
    simp [FitsShape, empty]
  | cons t ts ih =>
    obtain ⟨rest, hrest, hsum⟩ := Outcome.bind_eq_ok_iff.1 h
    rw [add?_fits hsum, ih hrest, List.forall_mem_cons]

theorem stored_total? (hts : ∀ t ∈ ts, t.Stored) (h : total? ts = .ok r) : r.Stored := by
  induction ts generalizing r with
  | nil =>
    cases h
    simp [Stored, empty]
  | cons t ts ih =>
    obtain ⟨ht, hts⟩ := List.forall_mem_cons.1 hts
    obtain ⟨rest, hrest, hsum⟩ := Outcome.bind_eq_ok_iff.1 h
    exact stored_add? ht (ih hts hrest) hsum

/-- The sum of tallies holds what is stored of the sum of all that they hold. -/
theorem value_total? (hts : ∀ t ∈ ts, t.Stored) (h : total? ts = .ok r) (hfits : r.FitsShape V K)
    (hw : w ≤ V) (hk : k < K) : (r.toCounts V K).value w k =
      signed (ts.map fun t => (t.toCounts V K).value w k).sum := by
  refine Arithmetic.eq_signed_of_modEq (stored_value (stored_total? hts h) hfits hw hk) ?_
  clear hts
  induction ts generalizing r with
  | nil =>
    cases h
    simp [toCounts, empty]
  | cons t ts ih =>
    obtain ⟨rest, hrest, hsum⟩ := Outcome.bind_eq_ok_iff.1 h
    obtain ⟨ht, hrest_fits⟩ := (add?_fits hsum).1 hfits
    rw [List.map_cons, List.sum_cons]
    exact (value_add? ht hrest_fits hsum hw hk).trans ((ih hrest hrest_fits).add_left _)

/-- Tallies have a sum just if they fit one shape. -/
theorem total?_ok_iff : (∃ r, total? ts = .ok r) ↔ Alike ts := by
  constructor
  · rintro ⟨r, hr⟩
    obtain ⟨V, K, hfits⟩ := r.exists_fits
    exact ⟨V, K, (total?_fits hr).1 hfits⟩
  · rintro ⟨V, K, hts⟩
    induction ts with
    | nil => exact ⟨empty, rfl⟩
    | cons t ts ih =>
      obtain ⟨ht, hts⟩ := List.forall_mem_cons.1 hts
      obtain ⟨r, hr⟩ := ih hts
      obtain ⟨s, hs⟩ := add?_ok ht ((total?_fits hr).2 hts)
      exact ⟨s, by rw [total?, hr, Outcome.ok_bind, hs]⟩

/-- Merging one after the other is adding one after the other. -/
theorem mergeAll_ok_iff : Worker.mergeAll (α := α) ts t = .ok r ↔ ts.foldlM add? t = .ok r := by
  induction ts generalizing t with
  | nil => simp [Worker.mergeAll, pure, Except.pure]
  | cons u ts ih =>
    rw [Worker.mergeAll, List.foldlM_cons]
    rcases merge_spec (α := α) t u with ⟨s, hadd, hmerge⟩ | ⟨c, d, hc, hd, hs, hmerge⟩
    · rw [hmerge, hadd]
      exact ih
    · obtain ⟨_⟩ := t
      obtain ⟨_⟩ := u
      cases hc
      cases hd
      rw [hmerge, add?_counts, Counts.add?_eq_none hs]
      simp

end Tally

/-- A way to add up tallies two at a time. -/
inductive Summing where
  | tally (t : Tally)
  | add (left right : Summing)

namespace Summing

/-- The tallies that are added up, from left to right. -/
def tallies : Summing → List Tally
  | tally t => [t]
  | add left right => left.tallies ++ right.tallies

def run : Summing → Except Fault Tally
  | tally t => .ok t
  | add left right => do
    let t ← left.run
    let u ← right.run
    t.add? u

/-- The bracketing leaves no trace. -/
theorem run_eq_total? : ∀ g : Summing, g.run = Tally.total? g.tallies
  | tally t => (Tally.add?_empty t).symm
  | add left right => by
    rw [run, tallies, Tally.total?_append, run_eq_total? left, run_eq_total? right]

end Summing

namespace Tally

end Tally

end

namespace Tally

end Tally

end TopicModel
