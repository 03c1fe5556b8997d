import Mathlib
import TopicModel.Proofs.Worker

/-!
# Scores

The checks before a document is scored are those before it is sampled. A document that passes them
fails only by the share of a word in a topic (`RaisesShare`), and one that is scored adds its tokens
(`addDocument_ok`). Both are handed up: a worker's score fails with what a check reports of one of
its documents or with such a share (`Worker.score_error`), and otherwise covers the tokens of all
documents (`Worker.score_tokens`).
-/

namespace TopicModel

open Arithmetic (unsigned unsigned_unsigned unsigned_add_left unsigned_add_right unsigned_zero)

variable {α : Type} [Scalar α] {o : Options α} {c : Counts} {e : Failure α}

/-- The failure names the share of a word in a topic, which is not proper or was read from a
negative count. -/
def RaisesShare (o : Options α) (c : Counts) (e : Failure α) : Prop :=
  ∃ word < c.vocSize, ∃ topic < c.topicNum,
    (c.value word topic < 0 ∨ c.value c.vocSize topic < 0 ∨
      Scalar.isProper (wordShare o (c.value word topic) (c.value c.vocSize topic)) = false) ∧
    e = .error (.degenerateWeights word topic
      (wordShare o (c.value word topic) (c.value c.vocSize topic)))

/-! ## Documents -/

theorem wordProbability_error {word : Nat} (hword : word < c.vocSize) :
    ∀ {shares : List α} {topic : Nat} {total : α}, topic + shares.length ≤ c.topicNum →
    wordProbability o c word topic shares total = .error e → RaisesShare o c e
  | [], _, _, _, h => by cases h
  | share :: shares, topic, total, hlen, h => by
    rw [List.length_cons] at hlen
    have hr : c.InRange word topic := ⟨Nat.le_of_lt hword, by omega⟩
    simp only [wordProbability, Counts.entry?_eq hr, Counts.total?_eq hr.2] at h
    split at h
    · rename_i hbad
      cases h
      exact ⟨word, hword, topic, hr.2, by simpa using hbad, rfl⟩
    · exact wordProbability_error hword (by omega) h

namespace Perplexity

section
variable [Arithmetic] {p q : Perplexity α} {d : Document} {s : TopicState}

theorem addEntries_error {shares : List α} (hlen : shares.length ≤ c.topicNum) :
    ∀ {es : List (Nat × Nat)} {p : Perplexity α}, (∀ x ∈ es, x.1 < c.vocSize) →
    (addEntries o c shares es p).1 = .error e → RaisesShare o c e
  | [], _, _, h => by cases h
  | (word, count) :: es, p, hes, h => by
    obtain ⟨hword, hes⟩ := List.forall_mem_cons.1 hes
    rw [addEntries] at h
    cases hw : wordProbability o c word 0 shares Scalar.zero with
    | error e' =>
      rw [hw] at h
      cases h
      exact wordProbability_error hword (by rwa [Nat.zero_add]) hw
    | ok probability =>
      rw [hw] at h
      exact addEntries_error hlen hes h

theorem addEntries_tokens {shares : List α} : ∀ {es : List (Nat × Nat)} {p q : Perplexity α},
    unsigned 64 p.tokens = p.tokens → addEntries o c shares es p = (.ok (), q) →
    q.tokens = unsigned 64 (p.tokens + (es.map Prod.snd).sum)
  | [], _, _, hp, h => by
    cases h
    exact hp.symm
  | (word, count) :: es, p, q, _, h => by
    rw [addEntries] at h
    cases hw : wordProbability o c word 0 shares Scalar.zero with
    | error e =>
      rw [hw] at h
      cases h
    | ok probability =>
      rw [hw] at h
      rw [addEntries_tokens unsigned_unsigned h, unsigned_add_left, List.map_cons, List.sum_cons,
        Nat.add_assoc]

/-- The checks are those of a sample. -/
theorem addDocument_eq (p : Perplexity α) (o : Options α) (c : Counts) (d : Document)
    (s : TopicState) : p.addDocument o c d s =
      match checkSample o 1 d s c with
      | .error e => (.error (.error e), p)
      | .ok () =>
        if d.isEmpty then (.ok (), p)
        else addEntries o c (topicShares o d.tokenCount s.counts) d.entries p := rfl

/-- A document that is not scored is refused by a check or fails by a share of one of its words. -/
theorem addDocument_error (h : (p.addDocument o c d s).1 = .error e) :
    (∃ cause, checkSample o 1 d s c = .error cause ∧ e = .error cause) ∨ RaisesShare o c e := by
  rw [addDocument_eq] at h
  cases hcheck : checkSample o 1 d s c with
  | error cause =>
    rw [hcheck] at h
    cases h
    exact .inl ⟨cause, rfl, rfl⟩
  | ok u =>
    rw [hcheck] at h
    obtain ⟨-, ⟨hV, hK⟩, hwords, hstate⟩ := checkSample_ok_iff.1 hcheck
    have hshares : (topicShares o d.tokenCount s.counts).length ≤ c.topicNum := by
      rw [topicShares, List.length_map, (TopicState.check_ok_iff.1 hstate).1, hK]
    dsimp only at h
    split at h
    · cases h
    · refine .inr (addEntries_error hshares (fun x hx => ?_) h)
      rw [hV]
      exact ((Document.checkWords_ok_iff.1 hwords).2 x hx).1

/-- A document that is scored has passed the checks and added its tokens. -/
theorem addDocument_ok (h : p.addDocument o c d s = (.ok (), q)) :
    checkSample o 1 d s c = .ok () ∧
      (unsigned 64 p.tokens = p.tokens → q.tokens = unsigned 64 (p.tokens + d.tokenCount)) := by
  rw [addDocument_eq] at h
  cases hcheck : checkSample o 1 d s c with
  | error cause =>
    rw [hcheck] at h
    cases h
  | ok u =>
    rw [hcheck] at h
    refine ⟨rfl, fun hp => ?_⟩
    dsimp only at h
    split at h
    · rename_i hempty
      have hzero : d.tokenCount = 0 := by simpa [Document.isEmpty] using hempty
      cases h
      rw [hzero, Nat.add_zero, hp]
    · obtain ⟨-, -, hwords, -⟩ := checkSample_ok_iff.1 hcheck
      have hlen := (Document.checkWords_ok_iff.1 hwords).1
      rw [addEntries_tokens hp h, Document.entries, List.map_snd_zip (Nat.le_of_eq hlen.symm),
        Document.tokenCount_eq]

theorem addDocuments_error : ∀ {pairs : List (Document × TopicState)} {p : Perplexity α},
    p.addDocuments o c pairs = .error e →
    (∃ x ∈ pairs, ∃ cause, checkSample o 1 x.1 x.2 c = .error cause ∧ e = .error cause) ∨
      RaisesShare o c e
  | [], _, h => by cases h
  | (d, s) :: rest, p, h => by
    rw [addDocuments] at h
    rcases hadd : p.addDocument o c d s with ⟨e' | u, p'⟩
    · rw [hadd] at h
      cases h
      exact (addDocument_error (congrArg Prod.fst hadd)).imp_left fun hcause =>
        ⟨(d, s), List.mem_cons_self, hcause⟩
    · rw [hadd] at h
      exact (addDocuments_error h).imp_left fun ⟨x, hx, hcause⟩ =>
        ⟨x, List.mem_cons_of_mem _ hx, hcause⟩

theorem addDocuments_tokens : ∀ {pairs : List (Document × TopicState)} {p q : Perplexity α},
    unsigned 64 p.tokens = p.tokens → p.addDocuments o c pairs = .ok q →
    q.tokens = unsigned 64 (p.tokens + (pairs.map fun x => x.1.tokenCount).sum)
  | [], _, _, hp, h => by
    cases h
    exact hp.symm
  | (d, s) :: rest, p, q, hp, h => by
    rw [addDocuments] at h
    rcases hadd : p.addDocument o c d s with ⟨e | u, p'⟩
    · rw [hadd] at h
      cases h
    · rw [hadd] at h
      have hp' := (addDocument_ok hadd).2 hp
      rw [addDocuments_tokens (by rw [hp', unsigned_unsigned]) h, hp', unsigned_add_left,
        List.map_cons, List.sum_cons, Nat.add_assoc]

theorem tokens_sum (ps : List (Perplexity α)) :
    (sum ps).tokens = unsigned 64 (ps.map tokens).sum := by
  have hfold : ∀ (ps : List (Perplexity α)) (p : Perplexity α), unsigned 64 p.tokens = p.tokens →
      (ps.foldl add p).tokens = unsigned 64 (p.tokens + (ps.map tokens).sum) := by
    intro ps
    induction ps with
    | nil => exact fun p hp => hp.symm
    | cons q ps ih =>
      intro p _
      rw [List.foldl_cons, ih _ unsigned_unsigned, List.map_cons, List.sum_cons, ← Nat.add_assoc]
      exact unsigned_add_left
  rw [sum, hfold ps empty unsigned_zero, empty, Nat.zero_add]

end

end Perplexity

/-! ## Workers -/

namespace Outcome

variable {β τ : Type} {f : β → Outcome α τ}

omit [Scalar α] in
theorem mapM_error : ∀ {xs : List β}, xs.mapM f = .error e → ∃ x ∈ xs, f x = .error e
  | [], h => by cases h
  | x :: xs, h => by
    rw [List.mapM_cons] at h
    cases hx : f x with
    | error e' =>
      rw [hx] at h
      cases h
      exact ⟨x, List.mem_cons_self, hx⟩
    | ok y =>
      rw [hx, ok_bind] at h
      cases hxs : xs.mapM f with
      | error e' =>
        rw [hxs] at h
        cases h
        obtain ⟨x', hx', he⟩ := mapM_error hxs
        exact ⟨x', List.mem_cons_of_mem _ hx', he⟩
      | ok ys =>
        rw [hxs] at h
        cases h

omit [Scalar α] in
theorem mapM_ok : ∀ {xs : List β} {ys : List τ}, xs.mapM f = .ok ys →
    List.Forall₂ (fun x y => f x = .ok y) xs ys
  | [], ys, h => by
    cases h
    exact .nil
  | x :: xs, ys, h => by
    rw [List.mapM_cons] at h
    cases hx : f x with
    | error e =>
      rw [hx] at h
      cases h
    | ok y =>
      rw [hx, ok_bind] at h
      cases hxs : xs.mapM f with
      | error e =>
        rw [hxs] at h
        cases h
      | ok rest =>
        rw [hxs] at h
        cases h
        exact .cons hx (mapM_ok hxs)

end Outcome

namespace Worker

variable [Arithmetic] {w : Worker} {b : Broadcast α}

/-- A score fails with what a check reports of a document, or by the share of a word. -/
theorem score_error (h : w.score b = .error e) :
    (∃ x ∈ w.pairs, ∃ cause, checkSample b.options 1 x.1 x.2 b.counts = .error cause ∧
      e = .error cause) ∨ RaisesShare b.options b.counts e := by
  have hpart : ∃ p ∈ w.partitions, p.score b = .error e := by
    cases w with
    | single p => exact ⟨p, List.mem_cons_self, h⟩
    | sharded ps =>
      rw [Worker.score] at h
      cases hscores : ps.mapM (fun p => p.score b) with
      | error e' =>
        rw [hscores] at h
        cases h
        exact Outcome.mapM_error hscores
      | ok scores =>
        rw [hscores] at h
        cases h
  obtain ⟨p, hp, he⟩ := hpart
  exact (Perplexity.addDocuments_error he).imp_left fun ⟨x, hx, hcause⟩ =>
    ⟨x, List.mem_flatMap.2 ⟨p, hp, hx⟩, hcause⟩

/-- A score covers the tokens of the documents that have a state. -/
theorem score_tokens {q : Perplexity α} (h : w.score b = .ok q) :
    q.tokens = unsigned 64 ((w.pairs.map Prod.fst).map Document.tokenCount).sum := by
  have hpart : ∀ {p : Partition} {q : Perplexity α}, p.score b = .ok q →
      q.tokens = unsigned 64 (p.pairs.map (Document.tokenCount ∘ Prod.fst)).sum := fun hp => by
    rw [Perplexity.addDocuments_tokens unsigned_zero hp, Perplexity.empty, Nat.zero_add]
    rfl
  rw [List.map_map]
  cases w with
  | single p => rw [pairs, partitions, List.flatMap_singleton, hpart h]
  | sharded ps =>
    rw [Worker.score] at h
    cases hscores : ps.mapM (fun p => p.score b) with
    | error e =>
      rw [hscores] at h
      cases h
    | ok scores =>
      rw [hscores] at h
      cases h
      rw [Perplexity.tokens_sum, pairs, partitions]
      have hall := Outcome.mapM_ok hscores
      clear hscores
      induction hall with
      | nil => rfl
      | cons hp _ ih =>
        rw [List.map_cons, List.sum_cons, hpart hp, unsigned_add_left, ← unsigned_add_right, ih,
          unsigned_add_right, List.flatMap_cons, List.map_append, List.sum_append]

end Worker

end TopicModel
