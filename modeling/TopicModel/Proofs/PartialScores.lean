import Mathlib
import TopicModel.Double
import TopicModel.Proofs.Score

/-!
# Scores of documents that fail

A document is added to a score word by word, so that a word that fails leaves behind what the words
before it have added. `addEntries_stopped` finds the place: the score is then the one of the words
before, all of which succeed. `addDocument_leaves` says of any document what is left, and that only
a failure at the first word leaves the score untouched.
-/

namespace TopicModel

open Arithmetic (unsigned unsigned_eq_self_mono)

namespace Perplexity

section

variable {α : Type} [Arithmetic] [Scalar α] {o : Options α} {c : Counts} {d : Document}
  {s : TopicState} {p q : Perplexity α}

/-- The number of tokens of the score has room for those of the document. -/
def HasRoomFor (p : Perplexity α) (d : Document) : Prop :=
  unsigned 64 (p.tokens + d.tokenCount) = p.tokens + d.tokenCount

instance (p : Perplexity α) (d : Document) : Decidable (p.HasRoomFor d) :=
  inferInstanceAs (Decidable (_ = _))

/-- Where a failing document is left: at a word that fails after those before it were added. -/
structure StoppedAt (o : Options α) (c : Counts) (shares : List α) (es : List (Nat × Nat))
    (p q : Perplexity α) (e : Failure α) (done : List (Nat × Nat)) : Prop where
  failing : ∃ word count rest, es = done ++ (word, count) :: rest ∧
    wordProbability o c word 0 shares Scalar.zero = .error e
  added : addEntries o c shares done p = (.ok (), q)

theorem addEntries_stopped {shares : List α} {e : Failure α} : ∀ {es : List (Nat × Nat)}
    {p q : Perplexity α}, addEntries o c shares es p = (.error e, q) →
    ∃ done, StoppedAt o c shares es p q e done
  | [], _, _, h => by cases h
  | (word, count) :: es, p, q, h => by
    rw [addEntries] at h
    cases hword : wordProbability o c word 0 shares Scalar.zero with
    | error e' =>
      rw [hword] at h
      cases h
      exact ⟨[], ⟨word, count, es, rfl, hword⟩, rfl⟩
    | ok probability =>
      rw [hword] at h
      obtain ⟨done, ⟨word', count', rest, rfl, herror⟩, hadded⟩ := addEntries_stopped h
      refine ⟨(word, count) :: done, ⟨word', count', rest, rfl, herror⟩, ?_⟩
      rw [addEntries, hword]
      exact hadded

/-- With counts that are positive any word that was added shows. -/
theorem addEntries_eq_self_iff {shares : List α} {es : List (Nat × Nat)}
    (hroom : unsigned 64 (p.tokens + (es.map Prod.snd).sum) = p.tokens + (es.map Prod.snd).sum)
    (hpos : ∀ x ∈ es, 0 < x.2) (h : addEntries o c shares es p = (.ok (), q)) :
    q = p ↔ es = [] := by
  constructor
  · rintro rfl
    have htokens : q.tokens = q.tokens + (es.map Prod.snd).sum :=
      (addEntries_tokens (unsigned_eq_self_mono hroom (Nat.le_add_right _ _)) h).trans hroom
    cases es with
    | nil => rfl
    | cons x es =>
      have hx := hpos x List.mem_cons_self
      rw [List.map_cons, List.sum_cons] at htokens
      omega
  · rintro rfl
    cases h
    rfl

/-- With room for its tokens, a document that is scored has added them. One that a check refuses has
added nothing. One that fails at a word has added the words before, and so leaves the score as it
was just if that is its first word. -/
theorem addDocument_leaves {r : Outcome α Unit} (h : p.addDocument o c d s = (r, q))
    (hroom : p.HasRoomFor d) :
    (r = .ok () → q.tokens = p.tokens + d.tokenCount) ∧
      ∀ e, r = .error e →
        (∃ cause, checkSample o 1 d s c = .error cause ∧ e = .error cause ∧ q = p) ∨
        ∃ done, StoppedAt o c (topicShares o d.tokenCount s.counts) d.entries p q e done ∧
          q.tokens = p.tokens + (done.map Prod.snd).sum ∧ (q = p ↔ done = []) := by
  have hp : unsigned 64 p.tokens = p.tokens :=
    unsigned_eq_self_mono hroom (Nat.le_add_right _ _)
  constructor
  · rintro rfl
    exact ((addDocument_ok h).2 hp).trans hroom
  · rintro e rfl
    rw [addDocument_eq] at h
    cases hcheck : checkSample o 1 d s c with
    | error cause =>
      rw [hcheck] at h
      cases h
      exact .inl ⟨cause, rfl, rfl, rfl⟩
    | ok u =>
      rw [hcheck] at h
      dsimp only at h
      split at h
      · cases h
      · obtain ⟨-, -, hwords, -⟩ := checkSample_ok_iff.1 hcheck
        obtain ⟨done, hstopped⟩ := addEntries_stopped h
        obtain ⟨hlen, hentry⟩ := Document.checkWords_ok_iff.1 hwords
        obtain ⟨word, count, rest, hentries, -⟩ := hstopped.failing
        have hpos : ∀ x ∈ done, 0 < x.2 := fun x hx =>
          (hentry x (hentries ▸ List.mem_append_left _ hx)).2
        -- the words that were added have no more tokens than all
        have hle : (done.map Prod.snd).sum ≤ d.tokenCount := by
          have hsum : (d.entries.map Prod.snd).sum = d.tokenCount := by
            rw [Document.entries, List.map_snd_zip (Nat.le_of_eq hlen.symm), Document.tokenCount_eq]
          rw [← hsum, hentries, List.map_append, List.sum_append]
          exact Nat.le_add_right _ _
        have hdone := unsigned_eq_self_mono hroom (Nat.add_le_add_left hle p.tokens)
        exact .inr ⟨done, hstopped, (addEntries_tokens hp hstopped.added).trans hdone,
          addEntries_eq_self_iff hdone hpos hstopped.added⟩

end

/-- The third word fails, and the three tokens of the two before it stay added. -/
theorem addDocument_leaves_third_word :
    let o : Options Float := ⟨3, 1, 1, 1⟩
    let c : Counts := ⟨3, 1, #[1, 0, -1, 2], rfl⟩
    let d : Document := ⟨0, [0, 1, 2], [2, 1, 4]⟩
    let s : TopicState := ⟨[7], [0, 0, 0, 0, 0, 0, 0]⟩
    let p : Perplexity Float := ⟨-1, 5⟩
    p.HasRoomFor d ∧
    ∃ q done, p.addDocument o c d s = (.error (.error (.degenerateWeights 2 0 0)), q) ∧
      StoppedAt o c (topicShares o 7 [7]) [(0, 2), (1, 1), (2, 4)] p q
        (.error (.degenerateWeights 2 0 0)) done ∧ q.tokens = 8 ∧ q ≠ p := by
  intro o c d s p
  have hresult : (p.addDocument o c d s).1 = .error (.error (.degenerateWeights 2 0 0)) := by
    decide +kernel
  have htokens : (p.addDocument o c d s).2.tokens = 8 := by decide +kernel
  have hcheck : checkSample o 1 d s c = .ok () := by decide +kernel
  rcases h : p.addDocument o c d s with ⟨r, q⟩
  rw [h] at hresult htokens
  obtain rfl := hresult
  have hne : q ≠ p := by
    rintro rfl
    cases htokens
  have hroom : p.HasRoomFor d := by decide +kernel
  obtain ⟨-, herror⟩ := addDocument_leaves h hroom
  obtain ⟨_, hcause, -⟩ | ⟨done, hstopped, -⟩ := herror _ rfl
  · rw [hcheck] at hcause
    cases hcause
  · exact ⟨hroom, q, done, rfl, hstopped, htokens, hne⟩

/-- A document with valid options that fails at its second word and is not taken back: the score has
the two tokens of its first word. -/
theorem addDocument_not_undone :
    let o : Options Float := ⟨3, 1, 1, 1⟩
    let c : Counts := ⟨3, 1, #[1, -1, 2, 2], rfl⟩
    let d : Document := ⟨0, [0, 1], [2, 1]⟩
    let s : TopicState := ⟨[3], [0, 0, 0]⟩
    let p : Perplexity Float := .empty
    o.check = .ok () ∧
      (p.addDocument o c d s).1 = .error (.error (.degenerateWeights 1 0 0)) ∧
      (p.addDocument o c d s).2.tokens = 2 ∧ p.tokens = 0 := by
  decide +kernel

end Perplexity

end TopicModel
