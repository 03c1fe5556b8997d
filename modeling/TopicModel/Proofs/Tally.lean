import Mathlib
import TopicModel.Proofs.TopicState
import TopicModel.Tally

/-!
# What a tally holds

`t.Holds V K tokens`: the tally `t` has gathered exactly the given tokens, over `V` words and `K`
topics. A tally that gathered nothing holds no token, and so does one whose counts are all zero; the
two differ as states and not in what they hold. Every operation on tallies succeeds on such tallies
and is described by the tokens held afterwards: `Holds.addDocument`, `Holds.add?`, `Holds.merge`,
`Holds.foldlM_add?`, `Holds.sum?`.
-/

namespace TopicModel

/-- The tokens that a list of documents with their assignments holds. -/
def assignedTokens (pairs : List (Document × List Nat)) : List (Nat × Nat) :=
  pairs.flatMap fun x => x.1.assigned x.2

namespace Counts

/-- Counting tokens of the layout succeeds and counts them on top of the others. -/
theorem Extends.incrementAll [Arithmetic] {base : Counts} :
    ∀ {xs tokens : List (Nat × Nat)} {c : Counts}, c.Extends base tokens →
    Within base.vocSize base.topicNum xs →
    ∃ d, c.incrementAll xs = (.ok (), d) ∧ d.Extends base (tokens ++ xs)
  | [], tokens, c, h, _ => ⟨c, rfl, by rwa [List.append_nil]⟩
  | (w, k) :: xs, tokens, c, h, hin => by
    obtain ⟨hw, hk⟩ := hin _ List.mem_cons_self
    have hr : c.InRange w k :=
      ⟨by rw [h.vocSize_eq]; exact Nat.le_of_lt hw, by rw [h.topicNum_eq]; exact hk⟩
    obtain ⟨d, hd, hext⟩ := Extends.incrementAll (h.increment hw hk)
      fun x hx => hin x (List.mem_cons_of_mem _ hx)
    refine ⟨d, by rw [Counts.incrementAll, if_pos hr, hd], hext.perm ?_⟩
    exact List.perm_middle.symm

theorem stored_incrementAll [Arithmetic] : ∀ {xs : List (Nat × Nat)} {c : Counts}, c.Stored →
    (c.incrementAll xs).2.Stored
  | [], _, h => h
  | (w, k) :: xs, c, h => by
    rw [incrementAll]
    split
    · exact stored_incrementAll (stored_addTokens h)
    · exact h

theorem Tallies.incrementAll [Arithmetic] {V K : Nat} {xs tokens : List (Nat × Nat)} {c : Counts}
    (h : c.Tallies V K tokens) (hin : Within V K xs) :
    ∃ d, c.incrementAll xs = (.ok (), d) ∧ d.Tallies V K (tokens ++ xs) := by
  obtain ⟨d, hd, hext⟩ := h.extends_zeros.incrementAll hin
  have hstored : (c.incrementAll xs).2.Stored := stored_incrementAll h.stored
  rw [hd] at hstored
  exact ⟨d, hd, hext.tallies hstored⟩

end Counts

namespace Tally

variable {α : Type} {V K : Nat} {t u : Tally} {xs ys : List (Nat × Nat)}

/-- The tally has gathered exactly the given tokens. -/
def Holds [Arithmetic] (t : Tally) (vocSize topicNum : Nat) (tokens : List (Nat × Nat)) : Prop :=
  match t.counts with
  | none => tokens = []
  | some c => c.Tallies vocSize topicNum tokens

section
variable [Arithmetic]

theorem holds_empty : empty.Holds V K [] := rfl

theorem Holds.perm (h : t.Holds V K xs) (hp : xs.Perm ys) : t.Holds V K ys := by
  obtain ⟨_ | c⟩ := t
  · change xs = [] at h
    subst h
    exact hp.nil_eq.symm
  · exact Counts.Tallies.perm h hp

/-- The counts of the tokens that a tally holds. -/
theorem Holds.toCounts (h : t.Holds V K xs) : (t.toCounts V K).Tallies V K xs := by
  obtain ⟨_ | c⟩ := t
  · change xs = [] at h
    subst h
    exact Counts.tallies_zeros V K
  · exact h

/-- Tallies that hold the same tokens differ at most in whether they gathered anything. -/
theorem Holds.unique (ht : t.Holds V K xs) (hu : u.Holds V K xs) (h : t.isEmpty = u.isEmpty) :
    t = u := by
  obtain ⟨_ | c⟩ := t <;> obtain ⟨_ | d⟩ := u
  · rfl
  · cases h
  · cases h
  · exact congrArg (fun c => Tally.mk (some c)) (Counts.Tallies.unique ht hu)

/-! ## Documents -/

omit [Arithmetic] in
theorem checkAssignment_ok_iff {d : Document} {assignment : List Nat} :
    checkAssignment (α := α) d assignment V K = .ok () ↔
      d.checkWords (α := α) V = .ok () ∧ assignment.length = d.tokenCount ∧
        ∀ k ∈ assignment, k < K := by
  unfold checkAssignment
  cases hw : d.checkWords (α := α) V with
  | error e => simp
  | ok u =>
    by_cases hl : assignment.length = d.tokenCount
    · cases hf : assignment.find? (K ≤ ·) with
      | none =>
        have hlt : ∀ k ∈ assignment, k < K := by simpa using List.find?_eq_none.1 hf
        simpa [pure, Except.pure, hl] using hlt
      | some k =>
        have hk : K ≤ k := by simpa using List.find?_some hf
        have hmem := List.mem_of_find?_eq_some hf
        simp only [Outcome.ok_bind, Outcome.throw_eq, hl, ne_eq, not_true_eq_false, if_false,
          reduceCtorEq, true_and, false_iff]
        exact fun h => absurd (h k hmem) (by omega)
    · simp [hl]

/-- A document that the empty tally takes passes the checks. -/
theorem checkAssignment_of_addDocument {d : Document} {assignment : List Nat}
    (h : (t.addDocument (α := α) d assignment V K).1 = .ok ()) :
    checkAssignment (α := α) d assignment V K = .ok () := by
  unfold Tally.addDocument at h
  cases hc : checkAssignment (α := α) d assignment V K with
  | error e => rw [hc] at h; cases h
  | ok u => rfl

theorem isEmpty_addDocument {d : Document} {assignment : List Nat}
    (h : t.addDocument (α := α) d assignment V K = (.ok (), u)) : u.isEmpty = false := by
  unfold Tally.addDocument at h
  split at h
  · cases h
  · dsimp only at h
    split at h
    · cases h
    · obtain ⟨-, rfl⟩ := Prod.mk.inj h
      rfl

/-- Where the sum of two tallies exists, merging gives it. -/
theorem merge_of_add? {r : Tally} (h : t.add? u = .ok r) : t.merge (α := α) u = (.ok (), r) := by
  rw [Tally.merge, h]

theorem isEmpty_add? {r : Tally} (h : t.add? u = .ok r) :
    r.isEmpty = (t.isEmpty && u.isEmpty) := by
  obtain ⟨_ | c⟩ := t <;> obtain ⟨_ | d⟩ := u
  · cases h; rfl
  · cases h; rfl
  · cases h; rfl
  · unfold Tally.add? at h
    dsimp only at h
    split at h <;> cases h
    rfl

/-! ## Sums -/

/-- Gathering a checked document succeeds and adds its tokens. -/
theorem Holds.addDocument {d : Document} {assignment : List Nat} (h : t.Holds V K xs)
    (hc : checkAssignment (α := α) d assignment V K = .ok ()) :
    ∃ u, t.addDocument (α := α) d assignment V K = (.ok (), u) ∧
      u.Holds V K (xs ++ d.assigned assignment) := by
  obtain ⟨hw, -, hk⟩ := checkAssignment_ok_iff.1 hc
  have ht := h.toCounts
  obtain ⟨c, hinc, hcount⟩ := ht.incrementAll (Document.within_assigned hw hk)
  refine ⟨⟨some c⟩, ?_, hcount⟩
  unfold Tally.addDocument
  rw [hc]
  simp only [ht.vocSize_eq, ht.topicNum_eq, ne_eq, not_true_eq_false, or_self, if_false]
  rw [show d.tokens.zip assignment = d.assigned assignment from rfl, hinc]
  rfl

theorem Holds.add? (ht : t.Holds V K xs) (hu : u.Holds V K ys) :
    ∃ r, t.add? u = .ok r ∧ r.Holds V K (xs ++ ys) := by
  obtain ⟨c⟩ := t
  obtain ⟨_ | d⟩ := u
  · change ys = [] at hu
    subst hu
    exact ⟨⟨c⟩, by cases c <;> rfl, by rwa [List.append_nil]⟩
  · cases c with
    | none =>
      change xs = [] at ht
      subst ht
      exact ⟨⟨some d⟩, rfl, hu⟩
    | some c =>
      obtain ⟨e, he, hsum⟩ := Counts.Tallies.add? ht hu
      exact ⟨⟨some e⟩, by simp [Tally.add?, he], hsum⟩

theorem Holds.merge (ht : t.Holds V K xs) (hu : u.Holds V K ys) :
    ∃ r, t.merge (α := α) u = (.ok (), r) ∧ r.Holds V K (xs ++ ys) :=
  have ⟨r, hr, hh⟩ := ht.add? hu
  ⟨r, merge_of_add? hr, hh⟩

/-- Tallies added one after the other. -/
theorem Holds.foldlM_add? : ∀ {ts : List Tally} {yss : List (List (Nat × Nat))} {t : Tally}
    {xs : List (Nat × Nat)}, t.Holds V K xs → List.Forall₂ (fun u ys => u.Holds V K ys) ts yss →
    ∃ r, ts.foldlM Tally.add? t = .ok r ∧ r.Holds V K (xs ++ yss.flatten)
  | [], _, t, xs, h, .nil => ⟨t, rfl, by rwa [List.flatten_nil, List.append_nil]⟩
  | u :: ts, ys :: yss, t, xs, h, .cons hu hts => by
    obtain ⟨s, hs, hh⟩ := h.add? hu
    obtain ⟨r, hr, hh⟩ := hh.foldlM_add? hts
    refine ⟨r, ?_, by rwa [List.flatten_cons, ← List.append_assoc]⟩
    rw [List.foldlM_cons, hs]
    exact hr

theorem Holds.sum? {ts : List Tally} {yss : List (List (Nat × Nat))}
    (h : List.Forall₂ (fun u ys => u.Holds V K ys) ts yss) :
    ∃ r, Tally.sum? ts = .ok r ∧ r.Holds V K yss.flatten := by
  cases h with
  | nil => exact ⟨empty, rfl, rfl⟩
  | cons h hts => exact h.foldlM_add? hts

end

end Tally

end TopicModel
