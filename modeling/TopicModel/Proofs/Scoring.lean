import Mathlib
import TopicModel.Proofs.Exact

/-!
# Scoring documents in parts

A `Scoring` is a way to score documents with their states: in parts, each from nothing, whose scores
are added in any order and bracketing. `Scoring.run` performs it with the operations of
`Perplexity`; a worker's score and the perplexity of a model are such scorings
(`Worker.score_eq_run`, `Model.perplexity_eq`).

Whether a document is scored does not depend on the score that it is added to
(`Perplexity.addDocument_fst`), so a scoring succeeds just if each of its documents is accepted
(`Scoring.run_ok_iff`). With exact scalars a document adds `documentScore` (`addDocument_score`),
whatever it is added to, so that the parts, their order and their bracketing leave no trace
(`score_independent_of_parts`).
-/

namespace TopicModel

open Arithmetic (unsigned unsigned_zero unsigned_add_left unsigned_add_right)

variable {α : Type} [Scalar α] {o : Options α} {c : Counts}

/-- A way to score documents with their states. -/
inductive Scoring where
  /-- The documents one after the other, from nothing. -/
  | part (pairs : List (Document × TopicState))
  /-- Two scores added. -/
  | add (left right : Scoring)

namespace Scoring

/-- The documents that are scored, with their states. -/
def pairs : Scoring → List (Document × TopicState)
  | part pairs => pairs
  | add left right => left.pairs ++ right.pairs

/-- The score that a scoring ends in. -/
def run [Arithmetic] (o : Options α) (c : Counts) : Scoring → Outcome α (Perplexity α)
  | part pairs => Perplexity.empty.addDocuments o c pairs
  | add left right => do
    let p ← left.run o c
    let q ← right.run o c
    return p.add q

def perplexity [Arithmetic] (o : Options α) (c : Counts) (g : Scoring) : Outcome α α := do
  let p ← g.run o c
  Outcome.ofCheck p.value

/-- Several scorings added to nothing, in order. -/
def sum (parts : List Scoring) : Scoring := parts.foldl add (part [])

end Scoring

/-- The way in which a worker scores its documents: each partition as a part. -/
def Worker.scoring : Worker → Scoring
  | single p => .part p.pairs
  | sharded ps => .sum (ps.map fun p => .part p.pairs)

/-- The empty score takes the document with its state. -/
def Accepts [Arithmetic] (o : Options α) (c : Counts) (x : Document × TopicState) : Prop :=
  (Perplexity.empty.addDocument o c x.1 x.2).1 = .ok ()

/-! ## Which documents are scored -/

section
variable [Arithmetic]

namespace Perplexity

theorem addEntries_fst {shares : List α} : ∀ (es : List (Nat × Nat)) (p q : Perplexity α),
    (addEntries o c shares es p).1 = (addEntries o c shares es q).1
  | [], _, _ => rfl
  | (word, count) :: es, p, q => by
    rw [addEntries, addEntries]
    cases wordProbability o c word 0 shares Scalar.zero with
    | error e => rfl
    | ok probability => exact addEntries_fst es _ _

/-- What is scored already does not decide on a document. -/
theorem addDocument_fst (p q : Perplexity α) (d : Document) (s : TopicState) :
    (p.addDocument o c d s).1 = (q.addDocument o c d s).1 := by
  rw [addDocument_eq, addDocument_eq]
  cases checkSample o 1 d s c with
  | error e => rfl
  | ok u =>
    dsimp only
    split
    · rfl
    · exact addEntries_fst _ _ _

theorem addDocuments_ok_iff : ∀ {pairs : List (Document × TopicState)} {p : Perplexity α},
    (∃ q, p.addDocuments o c pairs = .ok q) ↔ ∀ x ∈ pairs, Accepts o c x
  | [], p => ⟨fun _ => List.forall_mem_nil _, fun _ => ⟨p, rfl⟩⟩
  | (d, s) :: rest, p => by
    rw [List.forall_mem_cons, Accepts, addDocument_fst empty p, addDocuments]
    rcases p.addDocument o c d s with ⟨e | u, p'⟩
    · simp
    · simpa using addDocuments_ok_iff

end Perplexity

namespace Scoring

theorem run_add_ok {left right : Scoring} {r : Perplexity α} :
    (add left right).run o c = .ok r ↔
      ∃ p q, left.run o c = .ok p ∧ right.run o c = .ok q ∧ p.add q = r := by
  simp only [run, Outcome.bind_eq_ok_iff]
  constructor
  · rintro ⟨p, hp, q, hq, hr⟩
    exact ⟨p, q, hp, hq, Except.ok.inj hr⟩
  · rintro ⟨p, q, hp, hq, rfl⟩
    exact ⟨p, hp, q, hq, rfl⟩

/-- A scoring succeeds just if all its documents are accepted. -/
theorem run_ok_iff : ∀ g : Scoring, (∃ p, g.run o c = .ok p) ↔ ∀ x ∈ g.pairs, Accepts o c x
  | part _ => Perplexity.addDocuments_ok_iff
  | add left right => by
    rw [pairs, List.forall_mem_append, ← run_ok_iff left, ← run_ok_iff right]
    simp only [run_add_ok]
    constructor
    · rintro ⟨_, p, q, hp, hq, -⟩
      exact ⟨⟨p, hp⟩, ⟨q, hq⟩⟩
    · rintro ⟨⟨p, hp⟩, ⟨q, hq⟩⟩
      exact ⟨_, p, q, hp, hq, rfl⟩

/-- It covers the tokens of its documents. -/
theorem run_tokens : ∀ {g : Scoring} {p : Perplexity α}, g.run o c = .ok p →
    p.tokens = unsigned 64 (g.pairs.map fun x => x.1.tokenCount).sum
  | part _, _, h => by
    rw [Perplexity.addDocuments_tokens unsigned_zero h, Perplexity.empty, Nat.zero_add, pairs]
  | add left right, _, h => by
    obtain ⟨p, q, hp, hq, rfl⟩ := run_add_ok.1 h
    rw [pairs, List.map_append, List.sum_append, Perplexity.add, run_tokens hp, run_tokens hq,
      unsigned_add_left, unsigned_add_right]

theorem run_foldl (o : Options α) (c : Counts) : ∀ (parts : List Scoring) (g : Scoring),
    (parts.foldl add g).run o c = (do
      let p ← g.run o c
      let ps ← parts.mapM fun g => g.run o c
      return ps.foldl Perplexity.add p)
  | [], g => by simp
  | next :: parts, g => by
    rw [List.foldl_cons, run_foldl o c parts, run]
    simp

theorem run_sum (o : Options α) (c : Counts) (parts : List Scoring) :
    (sum parts).run o c =
      (parts.mapM fun g => g.run o c) >>= fun ps => pure (Perplexity.sum ps) :=
  run_foldl o c parts (part [])

omit [Arithmetic] [Scalar α] in
theorem pairs_sum (parts : List Scoring) : (sum parts).pairs = parts.flatMap pairs := by
  have hfold : ∀ (parts : List Scoring) (g : Scoring),
      (parts.foldl add g).pairs = g.pairs ++ parts.flatMap pairs := by
    intro parts
    induction parts with
    | nil => intro g; exact (List.append_nil _).symm
    | cons next parts ih =>
      intro g
      rw [List.foldl_cons, ih, pairs, List.append_assoc, List.flatMap_cons]
  exact hfold parts (part [])

end Scoring

/-! ## Workers and models -/

omit [Arithmetic] [Scalar α] in
theorem Worker.pairs_scoring (w : Worker) : w.scoring.pairs = w.pairs := by
  cases w with
  | single p => exact (List.flatMap_singleton ..).symm
  | sharded ps =>
    rw [scoring, Scoring.pairs_sum, List.flatMap_map]
    rfl

theorem Worker.score_eq_run (w : Worker) (b : Broadcast α) :
    w.score b = w.scoring.run b.options b.counts := by
  cases w with
  | single p => rfl
  | sharded ps =>
    rw [scoring, Scoring.run_sum, List.mapM_map]
    rfl

theorem Model.perplexity_eq {m : Model α} {b : Broadcast α} (h : m.fitted = some b)
    (documents : List TopicDocument) :
    m.perplexity documents =
      (Scoring.part (documents.map fun d => (d.document, d.topics))).perplexity b.options
        b.counts := by
  rw [Model.perplexity, broadcast, h]
  rfl

end

/-! ## Exact scores -/

/-- The probability of a word for a token of the document: over the topics, the share of the topic
in the document times the share of the word in the topic. -/
noncomputable def tokenProbability (o : Options ℝ) (c : Counts) (d : Document) (s : TopicState)
    (word : Nat) : ℝ :=
  ∑ k ∈ Finset.range o.topicNum,
    ((s.counts.getD k 0 : ℤ) + o.alpha) / (d.tokenCount + o.topicNum * o.alpha) *
      (((c.value word k : ℤ) + o.beta) / ((c.value o.vocSize k : ℤ) + o.vocSize * o.beta))

/-- The log-likelihood of a document's tokens, one term for each distinct word. -/
noncomputable def documentScore (o : Options ℝ) (c : Counts) (x : Document × TopicState) : ℝ :=
  (x.1.entries.map fun (word, count) => count * Real.log (tokenProbability o c x.1 x.2 word)).sum

section
variable {o : Options ℝ} {d : Document} {s : TopicState} {p q : Perplexity ℝ}

theorem wordProbability_ok {word : Nat} (hword : word ≤ c.vocSize) :
    ∀ {shares : List ℝ} {topic : Nat} {total y : ℝ}, topic + shares.length ≤ c.topicNum →
    wordProbability o c word topic shares total = .ok y →
    y = total + ∑ j ∈ Finset.range shares.length,
      shares.getD j 0 * wordShare o (c.value word (topic + j)) (c.value c.vocSize (topic + j))
  | [], _, _, _, _, h => by
    cases h
    simp
  | share :: shares, topic, total, y, hlen, h => by
    rw [List.length_cons] at hlen
    have hr : c.InRange word topic := ⟨hword, by omega⟩
    simp only [wordProbability, Counts.entry?_eq hr, Counts.total?_eq hr.2] at h
    split at h
    · cases h
    · rw [wordProbability_ok hword (by omega) h, List.length_cons, Finset.sum_range_succ']
      simp only [List.getD_cons_succ, List.getD_cons_zero, Nat.add_zero, Nat.add_right_comm _ 1,
        ← Nat.add_assoc]
      ring

theorem zero_eq : (Scalar.zero : ℝ) = 0 := by
  simp [Scalar.zero, Scalar.ofInt]

/-- With a count for each topic, a word's probability is computed to be `tokenProbability`. -/
theorem wordProbability_eq {word : Nat} {y : ℝ} (hc : c.HasShape o.vocSize o.topicNum)
    (hlen : s.counts.length = o.topicNum) (hword : word < o.vocSize)
    (h : wordProbability o c word 0 (topicShares o d.tokenCount s.counts) Scalar.zero = .ok y) :
    y = tokenProbability o c d s word := by
  obtain ⟨hV, hK⟩ := hc
  have hshares : (topicShares o d.tokenCount s.counts).length = o.topicNum := by
    rw [topicShares, List.length_map, hlen]
  have hy := wordProbability_ok (by omega) (by omega) h
  rw [hshares] at hy
  rw [hy, tokenProbability, zero_eq, zero_add]
  refine Finset.sum_congr rfl fun k hk => ?_
  have hk : k < s.counts.length := by rwa [hlen, ← Finset.mem_range]
  have hshare : (topicShares o d.tokenCount s.counts).getD k 0 =
      ((s.counts.getD k 0 : ℤ) + o.alpha) / (d.tokenCount + o.topicNum * o.alpha) := by
    simp [topicShares, hk, Scalar.ofNat, Scalar.ofInt]
  rw [hshare, Nat.zero_add, hV, wordShare, Options.vocBeta]
  simp [Scalar.ofNat, Scalar.ofInt]

variable [Arithmetic]

namespace Perplexity

theorem addEntries_score (hc : c.HasShape o.vocSize o.topicNum)
    (hlen : s.counts.length = o.topicNum) :
    ∀ {es : List (Nat × Nat)} {p q : Perplexity ℝ}, (∀ x ∈ es, x.1 < o.vocSize) →
    addEntries o c (topicShares o d.tokenCount s.counts) es p = (.ok (), q) →
    q.logLikelihood = p.logLikelihood +
      (es.map fun (word, count) => count * Real.log (tokenProbability o c d s word)).sum
  | [], _, _, _, h => by
    cases h
    simp
  | (word, count) :: es, p, q, hes, h => by
    obtain ⟨hword, hes⟩ := List.forall_mem_cons.1 hes
    rw [addEntries] at h
    cases hw : wordProbability o c word 0 (topicShares o d.tokenCount s.counts) Scalar.zero with
    | error e =>
      rw [hw] at h
      cases h
    | ok probability =>
      rw [hw] at h
      rw [addEntries_score hc hlen hes h, wordProbability_eq hc hlen hword hw, List.map_cons,
        List.sum_cons]
      exact add_assoc _ _ _

/-- A document adds its score, whatever it is added to. -/
theorem addDocument_score (h : p.addDocument o c d s = (.ok (), q)) :
    q.logLikelihood = p.logLikelihood + documentScore o c (d, s) := by
  have hcheck := (addDocument_ok h).1
  obtain ⟨-, hc, hwords, hstate⟩ := checkSample_ok_iff.1 hcheck
  have hlen := (TopicState.check_ok_iff.1 hstate).1
  rw [addDocument_eq, hcheck] at h
  dsimp only at h
  split at h
  · rename_i hempty
    cases h
    have hnil : d.entries = [] := Document.entries_eq_nil hwords hempty
    rw [documentScore, hnil, List.map_nil, List.sum_nil, add_zero]
  · exact addEntries_score hc hlen (fun x hx => ((Document.checkWords_ok_iff.1 hwords).2 x hx).1)
      h

theorem addDocuments_score : ∀ {pairs : List (Document × TopicState)} {p q : Perplexity ℝ},
    p.addDocuments o c pairs = .ok q →
    q.logLikelihood = p.logLikelihood + (pairs.map (documentScore o c)).sum
  | [], _, _, h => by
    cases h
    simp
  | (d, s) :: rest, p, q, h => by
    rw [addDocuments] at h
    rcases hadd : p.addDocument o c d s with ⟨e | u, p'⟩
    · rw [hadd] at h
      cases h
    · rw [hadd] at h
      rw [addDocuments_score h, addDocument_score hadd, List.map_cons, List.sum_cons, add_assoc]

end Perplexity

/-- A scoring ends in the sum of the scores of its documents. -/
theorem Scoring.run_score : ∀ {g : Scoring} {p : Perplexity ℝ}, g.run o c = .ok p →
    p.logLikelihood = (g.pairs.map (documentScore o c)).sum
  | part _, _, h => by
    rw [Perplexity.addDocuments_score h, Perplexity.empty, zero_eq, zero_add, pairs]
  | add left right, _, h => by
    obtain ⟨p, q, hp, hq, rfl⟩ := run_add_ok.1 h
    rw [pairs, List.map_append, List.sum_append, ← run_score hp, ← run_score hq]
    rfl

/-- Counts that are not negative are accepted with every document that passes the checks. -/
theorem accepts_of_nonneg {x : Document × TopicState} (ho : o.check = .ok ())
    (hc : ∀ n ∈ c.flat, 0 ≤ n) (hcheck : checkSample o 1 x.1 x.2 c = .ok ()) : Accepts o c x := by
  unfold Accepts
  cases h : (Perplexity.empty.addDocument o c x.1 x.2).1 with
  | ok u => rfl
  | error e =>
    rcases Perplexity.addDocument_error h with ⟨cause, hcause, -⟩ | hraises
    · rw [hcheck] at hcause
      cases hcause
    · exact absurd hraises (not_raisesShare ho hc e)

end

/-- However documents with their states are split into parts, and in whatever order and bracketing
the scores of the parts are added, the whole succeeds just if each document is accepted by the empty
score. Then it covers the tokens of all documents, whose number is stored in 64 bits, and there is a
perplexity just if there are any.
With exact scalars its log-likelihood is the sum of the scores of the documents, so that every
other split ends in the same score. A worker scores its partitions and a model its documents in such
a way. -/
theorem score_independent_of_parts [Arithmetic] :
    (∀ {α : Type} [Scalar α] (o : Options α) (c : Counts) (pairs : List (Document × TopicState))
      (g : Scoring), g.pairs.Perm pairs →
      let tokens := unsigned 64 (pairs.map fun x => x.1.tokenCount).sum
      ((∃ p, g.run o c = .ok p) ↔ ∀ x ∈ pairs, Accepts o c x) ∧
      ∀ p, g.run o c = .ok p →
        p.tokens = tokens ∧
        (p.value = .error .emptyCorpus ↔ tokens = 0) ∧
        ((∃ y, p.value = .ok y) ↔ tokens ≠ 0)) ∧
    (∀ (o : Options ℝ) (c : Counts) (pairs : List (Document × TopicState)) (g : Scoring),
      g.pairs.Perm pairs → ∀ p, g.run o c = .ok p →
        p.logLikelihood = (pairs.map (documentScore o c)).sum ∧
        ∀ g' : Scoring, g'.pairs.Perm pairs →
          g'.run o c = .ok p ∧ g'.perplexity o c = Outcome.ofCheck p.value) ∧
    (∀ {α : Type} [Scalar α] (w : Worker) (b : Broadcast α),
      w.scoring.pairs = w.pairs ∧ w.score b = w.scoring.run b.options b.counts) ∧
    ∀ {α : Type} [Scalar α] (m : Model α) (b : Broadcast α) (documents : List TopicDocument),
      m.fitted = some b → m.perplexity documents =
        (Scoring.part (documents.map fun d => (d.document, d.topics))).perplexity b.options
          b.counts := by
  refine ⟨fun {α} _ o c pairs g hg => ⟨?_, fun p hp => ?_⟩, fun o c pairs g hg p hp => ?_,
    fun w b => ⟨w.pairs_scoring, w.score_eq_run b⟩, fun m b documents h => m.perplexity_eq h _⟩
  · rw [g.run_ok_iff]
    exact ⟨fun h x hx => h x (hg.mem_iff.2 hx), fun h x hx => h x (hg.mem_iff.1 hx)⟩
  · have htokens : p.tokens = unsigned 64 (pairs.map fun x => x.1.tokenCount).sum := by
      rw [Scoring.run_tokens hp, (hg.map _).sum_eq]
    rw [← htokens, Perplexity.value]
    split <;> simp_all
  · have hscore : p.logLikelihood = (pairs.map (documentScore o c)).sum :=
      (Scoring.run_score hp).trans (hg.map _).sum_eq
    refine ⟨hscore, fun g' hg' => ?_⟩
    -- the same documents are accepted, and their scores and tokens make up the same sums
    obtain ⟨p', hp'⟩ := g'.run_ok_iff.2 fun x hx =>
      g.run_ok_iff.1 ⟨p, hp⟩ x (hg.mem_iff.2 (hg'.mem_iff.1 hx))
    have hsame : p' = p := by
      have htokens : p'.tokens = p.tokens := by
        rw [Scoring.run_tokens hp', Scoring.run_tokens hp, ((hg'.trans hg.symm).map _).sum_eq]
      have hscore' : p'.logLikelihood = p.logLikelihood := by
        rw [Scoring.run_score hp', hscore, (hg'.map _).sum_eq]
      cases p'
      cases p
      simp_all
    rw [Scoring.perplexity, hp', hsame]
    exact ⟨rfl, rfl⟩

/-- Two documents under the counts of their tokens, scored in two parts and an empty one. -/
theorem score_two_documents_in_parts :
    let o : Options ℝ := ⟨2, 2, 1, 1⟩
    let c := (((Counts.zeros 2 2).increment 1 1).increment 0 1).increment 0 0
    let x : Document × TopicState := (⟨0, [0], [2]⟩, ⟨[1, 1], [0, 1]⟩)
    let y : Document × TopicState := (⟨1, [1], [1]⟩, ⟨[0, 1], [1]⟩)
    let g : Scoring := .add (.part [y]) (.add (.part []) (.part [x]))
    g.pairs.Perm [x, y] ∧ (∀ z ∈ [x, y], Accepts o c z) ∧
      ∃ p, g.run o c = .ok p ∧ p.tokens = 3 ∧
        p.logLikelihood = documentScore o c x + documentScore o c y ∧
        (Scoring.part [x, y]).run o c = .ok p := by
  intro o c x y g
  have ho : o.check = .ok () := Model.check_ok_iff.2
    ⟨isProper_iff.2 one_pos, isProper_iff.2 one_pos, by decide, by decide⟩
  have hc : c.Tallies 2 2 [(0, 0), (0, 1), (1, 1)] :=
    (((Counts.tallies_zeros 2 2).increment (by decide) (by decide)).increment (by decide)
      (by decide)).increment (by decide) (by decide)
  have haccepts : ∀ z ∈ [x, y], Accepts o c z := by
    intro z hz
    refine accepts_of_nonneg ho (hc.nonneg (by decide)) ?_
    rcases List.mem_pair.1 hz with rfl | rfl
    · decide +kernel
    · decide +kernel
  have hg : g.pairs.Perm [x, y] := List.Perm.swap x y []
  obtain ⟨hany, hexact, -⟩ := score_independent_of_parts
  obtain ⟨p, hp⟩ := (hany o c [x, y] g hg).1.2 haccepts
  have hscore := hexact o c [x, y] g hg p hp
  exact ⟨hg, haccepts, p, hp, ((hany o c [x, y] g hg).2 p hp).1,
    hscore.1.trans (by simp), (hscore.2 (.part [x, y]) (.refl _)).1⟩

end TopicModel
