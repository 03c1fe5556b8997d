import Mathlib
import TopicModel.Proofs.Exact
import TopicModel.Proofs.Prediction

/-!
# Negative counts

A model restored from outside may hold negative counts, and a prediction fails where it meets one.
With the reals as scalars nothing else makes it fail: the weight of a topic is computed from the
document's own counts of its other tokens, which are never negative, so that only the counts of the
model can make it improper. Whether a prediction fails, and with which word and topic, is then read
off the counts and the documents (`Counts.firstOffence?`), whatever was drawn.

A computation is `Decided` by the words it goes through if it succeeds just when no topic offends
any of them, and otherwise names the first word that is offended and the lowest topic that offends
it. This is kept from the weights of a token (`topicWeights_decided`) to a document, a partition, a
worker and a prediction (`Broadcast.infer_decided`). Later passes over a document go through the
same words again, so that the first one decides. What carries it is that frozen counts stay as they
are.
-/

namespace TopicModel

open Arithmetic (signed)

/-! ## Offences -/

namespace Counts

variable {c : Counts} {word topic : Nat} {words words' : List Nat}

/-- The count of the word with the topic or the total of the topic is negative. -/
def Offends (c : Counts) (word topic : Nat) : Prop :=
  c.value word topic < 0 ∨ c.value c.vocSize topic < 0

instance (c : Counts) (word topic : Nat) : Decidable (c.Offends word topic) :=
  inferInstanceAs (Decidable (_ ∨ _))

theorem not_offends_iff :
    ¬ c.Offends word topic ↔ 0 ≤ c.value word topic ∧ 0 ≤ c.value c.vocSize topic := by
  rw [Offends, not_or, Int.not_lt, Int.not_lt]

/-- The lowest topic that offends a word. -/
def offence? (c : Counts) (word : Nat) : Option Nat :=
  (List.range c.topicNum).find? fun topic => c.Offends word topic

theorem offence?_eq_none_iff :
    c.offence? word = none ↔ ∀ topic < c.topicNum, ¬ c.Offends word topic := by
  simp [offence?]

theorem offence?_eq_some_iff : c.offence? word = some topic ↔
    topic < c.topicNum ∧ c.Offends word topic ∧ ∀ k < topic, ¬ c.Offends word k := by
  simp only [offence?, List.find?_range_eq_some, decide_eq_true_eq, List.mem_range,
    Bool.not_eq_true', decide_eq_false_iff_not]
  tauto

/-- The first word that is offended, with the lowest topic that offends it. -/
def firstOffence? (c : Counts) (words : List Nat) : Option (Nat × Nat) :=
  words.findSome? fun word => (c.offence? word).map fun topic => (word, topic)

theorem firstOffence?_append :
    c.firstOffence? (words ++ words') = (c.firstOffence? words).or (c.firstOffence? words') :=
  List.findSome?_append

theorem firstOffence?_singleton :
    c.firstOffence? [word] = (c.offence? word).map fun topic => (word, topic) := by
  simp [firstOffence?]

theorem firstOffence?_eq_none_iff : c.firstOffence? words = none ↔
    ∀ word ∈ words, ∀ topic < c.topicNum, ¬ c.Offends word topic := by
  simp [firstOffence?, offence?_eq_none_iff]

theorem firstOffence?_eq_some_iff : c.firstOffence? words = some (word, topic) ↔
    ∃ before after, words = before ++ word :: after ∧
      (∀ w ∈ before, ∀ k < c.topicNum, ¬ c.Offends w k) ∧ topic < c.topicNum ∧
      c.Offends word topic ∧ ∀ k < topic, ¬ c.Offends word k := by
  simp only [firstOffence?, List.findSome?_eq_some_iff, Option.map_eq_some_iff, Prod.mk.injEq,
    Option.map_eq_none_iff, offence?_eq_none_iff, offence?_eq_some_iff]
  constructor
  · rintro ⟨before, w, after, hwords, ⟨k, hk, rfl, rfl⟩, hbefore⟩
    exact ⟨before, after, hwords, hbefore, hk⟩
  · rintro ⟨before, after, hwords, hbefore, hk⟩
    exact ⟨before, word, after, hwords, ⟨topic, hk, rfl, rfl⟩, hbefore⟩

end Counts

/-! ## Decided computations -/

/-- The computation succeeds just if no topic offends any of the words, and otherwise names the
first that is offended and the lowest topic that offends it. -/
structure Decided {τ : Type} (c : Counts) (words : List Nat) (result : Outcome ℝ τ) : Prop where
  clean : ∀ x, result = .ok x → c.firstOffence? words = none
  named : ∀ e, result = .error e → ∃ word topic weight,
    c.firstOffence? words = some (word, topic) ∧ e = .error (.degenerateWeights word topic weight)

namespace Decided

variable {τ τ' : Type} {c : Counts} {words words' : List Nat} {result : Outcome ℝ τ}

theorem nil {x : τ} : Decided c [] (.ok x : Outcome ℝ τ) :=
  ⟨fun _ _ => rfl, fun _ h => by cases h⟩

theorem map (f : τ → τ') (h : Decided c words result) : Decided c words (result.map f) := by
  cases result with
  | error e => exact ⟨fun _ hx => by (cases hx), fun _ he => h.named _ (by cases he; rfl)⟩
  | ok x => exact ⟨fun _ _ => h.clean x rfl, fun _ he => by (cases he)⟩

/-- Words that no topic offends decide on nothing. -/
theorem after (hclean : c.firstOffence? words = none) (h : Decided c words' result) :
    Decided c (words ++ words') result := by
  have hwords : c.firstOffence? (words ++ words') = c.firstOffence? words' := by
    rw [Counts.firstOffence?_append, hclean, Option.none_or]
  exact ⟨fun x hx => hwords.trans (h.clean x hx), fun e he => hwords ▸ h.named e he⟩

/-- A computation that ends with a failure goes through no further words. -/
theorem fail {e : Failure ℝ} (h : Decided c words (.error e : Outcome ℝ τ)) :
    Decided c (words ++ words') (.error e : Outcome ℝ τ') := by
  refine ⟨fun _ hx => by (cases hx), fun e' he => ?_⟩
  cases he
  obtain ⟨word, topic, weight, hfirst, he⟩ := h.named e rfl
  exact ⟨word, topic, weight, by rw [Counts.firstOffence?_append, hfirst, Option.some_or], he⟩

theorem bind {f : τ → Outcome ℝ τ'} (h : Decided c words result)
    (hf : ∀ x, result = .ok x → Decided c words' (f x)) :
    Decided c (words ++ words') (result >>= f) := by
  cases result with
  | error e => exact h.fail
  | ok x => exact (hf x rfl).after (h.clean x rfl)

/-- It succeeds just if no topic offends any of the words. -/
theorem ok_iff (h : Decided c words result) :
    (∃ x, result = .ok x) ↔ c.firstOffence? words = none := by
  constructor
  · rintro ⟨x, hx⟩
    exact h.clean x hx
  · intro hclean
    cases hresult : result with
    | ok x => exact ⟨x, rfl⟩
    | error e =>
      obtain ⟨word, topic, weight, hfirst, -⟩ := h.named e hresult
      rw [hclean] at hfirst
      cases hfirst

theorem error_of_first {word topic : Nat} (h : Decided c words result)
    (hfirst : c.firstOffence? words = some (word, topic)) :
    ∃ weight, result = .error (.error (.degenerateWeights word topic weight)) := by
  cases hresult : result with
  | ok x =>
    rw [h.clean x hresult] at hfirst
    cases hfirst
  | error e =>
    obtain ⟨word', topic', weight, hfirst', rfl⟩ := h.named e hresult
    rw [hfirst] at hfirst'
    cases hfirst'
    exact ⟨weight, rfl⟩

end Decided

/-! ## From weights to documents -/

section
variable {γ : Type} {o : Options ℝ} {c : Counts} {word old sweeps : Nat} {tc : List Int}

/-- Against counts of the document that are not negative, the signs of the model's counts decide
whether there are weights. -/
theorem topicWeights_decided (ho : o.check = .ok ()) (hc : c.HasShape o.vocSize o.topicNum)
    (hword : word < o.vocSize) (hlen : tc.length = o.topicNum) (htc : ∀ n ∈ tc, 0 ≤ n) :
    Decided c [word] (topicWeights o c word o.topicNum tc).2 := by
  obtain ⟨hV, hK⟩ := hc
  refine ⟨fun total h => ?_, fun e h => ?_⟩
  · rw [Counts.firstOffence?_singleton, Option.map_eq_none_iff, Counts.offence?_eq_none_iff]
    intro k hk
    obtain ⟨-, -, hw, ht, -⟩ := weightsFrom_ok h k (hK ▸ hk)
    rw [Nat.zero_add] at hw ht
    exact Counts.not_offends_iff.2 ⟨hw, ht⟩
  · obtain ⟨k, x, hx, hbad, hbefore, rfl⟩ := weightsFrom_error (by omega) hlen (by omega) h
    simp only [Nat.zero_add] at hbad hbefore ⊢
    have hk : k < c.topicNum := by
      rw [hK, ← hlen]
      exact (List.getElem?_eq_some_iff.1 hx).1
    have hoffends : c.Offends word k := by
      by_contra hnot
      obtain ⟨hw, ht⟩ := Counts.not_offends_iff.1 hnot
      rw [conditional_proper ho (htc x (List.mem_of_getElem? hx)) hw ht] at hbad
      rcases hbad with hneg | hneg | hneg
      · omega
      · omega
      · cases hneg
    refine ⟨word, k, _, ?_, rfl⟩
    rw [Counts.firstOffence?_singleton, Counts.offence?_eq_some_iff.2 ⟨hk, hoffends,
      fun i hi => Counts.not_offends_iff.2 (hbefore i hi)⟩]
    rfl

variable [Arithmetic] [Generator γ]

/-- The document's counts of the other tokens are never negative, so that the signs decide on a
token. -/
theorem resampleToken_decided {others : List Nat} {g : γ} (ho : o.check = .ok ())
    (hc : c.HasShape o.vocSize o.topicNum) (hword : word < o.vocSize) (hold : old < o.topicNum)
    (hroom : Arithmetic.HasRoom others.length) (htc : tc = histogram o.topicNum (old :: others)) :
    Decided c [word] (resampleToken o .frozen word old tc c g).1 := by
  have hleft : tc.modify old (fun n => signed (n - 1)) = histogram o.topicNum others := by
    rw [htc]
    exact modify_histogram_cons hroom
  have hweights : Decided c [word]
      (topicWeights o c word o.topicNum (tc.modify old fun n => signed (n - 1))).2 := by
    rw [hleft]
    exact topicWeights_decided ho hc hword length_histogram fun n => nonneg_of_mem_histogram
  refine ⟨fun x h => ?_, fun e h => ?_⟩
  · obtain ⟨total, htotal⟩ := resampleToken_weights (Prod.ext h rfl)
    exact hweights.clean total htotal
  · exact hweights.named e (resampleToken_error hword hc.1 hc.2 (by rw [htc, length_histogram])
      hold h)

/-- A pass over tokens, besides which the document has counted the topics `drawn` before. -/
theorem sweepTokens_decided (ho : o.check = .ok ()) (hc : c.HasShape o.vocSize o.topicNum) :
    ∀ {tokens topics : List Nat} (drawn : List Nat) {tc : List Int} {g : γ},
    tokens.length = topics.length → (∀ w ∈ tokens, w < o.vocSize) →
    (∀ k ∈ topics, k < o.topicNum) → tc = histogram o.topicNum (topics ++ drawn) →
    Arithmetic.HasRoom (topics ++ drawn).length →
    Decided c tokens (sweepTokens o .frozen tokens topics tc c g).1
  | [], [], _, _, _, _, _, _, _ => fun _ => .nil
  | word :: tokens, old :: topics, drawn, tc, g, hlen, hw, hk, htc => by
    intro hroom
    obtain ⟨hword, hw⟩ := List.forall_mem_cons.1 hw
    obtain ⟨hold, hk⟩ := List.forall_mem_cons.1 hk
    have hone : Decided c [word] (resampleToken o .frozen word old tc c g).1 :=
      resampleToken_decided ho hc hword hold (hroom.mono (Nat.le_succ _)) htc
    have hcounts : (resampleToken o .frozen word old tc c g).2.1 = c := resampleToken_frozen
    rw [sweepTokens]
    change Decided c ([word] ++ tokens) _
    rcases hresampled : resampleToken o .frozen word old tc c g with ⟨e | ⟨new, tc₁⟩, c₁, g₁⟩
    · rw [hresampled] at hone
      exact hone.fail
    · rw [hresampled] at hone hcounts
      change c₁ = c at hcounts
      subst c₁
      obtain ⟨-, rfl, -⟩ := resampleToken_ok hresampled
      have hjoin : ((tc.modify old fun n => signed (n - 1)).modify new fun n => signed (n + 1)) =
          histogram o.topicNum (topics ++ new :: drawn) := by
        have hroom : Arithmetic.HasRoom ((topics ++ drawn).length + 1) := hroom
        rw [htc, List.cons_append, modify_histogram_cons (hroom.mono (Nat.le_succ _)),
          modify_histogram hroom]
        exact histogram_perm List.perm_middle.symm
      have hrest := sweepTokens_decided ho hc (new :: drawn) (g := g₁) (Nat.succ.inj hlen) hw hk
        hjoin (hroom.mono (by simp; omega))
      refine .after (hone.clean _ rfl) ?_
      dsimp only
      generalize sweepTokens o .frozen tokens topics _ c g₁ = rest at hrest ⊢
      obtain ⟨e | ⟨news, tc'⟩, c', g'⟩ := rest
      · exact hrest
      · exact hrest.map fun x => (new :: x.1, x.2)

/-- Passes over a document are decided in the first. -/
theorem sweepDocument_decided {d : Document} (ho : o.check = .ok ())
    (hc : c.HasShape o.vocSize o.topicNum) (hd : d.checkWords (α := ℝ) o.vocSize = .ok ()) :
    ∀ {n : Nat} {s : TopicState} {g : γ}, s.Fits d o.topicNum →
    Decided c d.tokens (sweepDocument o .frozen d.tokens (n + 1) s c g).1
  | n, s, g, hs => by
    have hlen := Document.length_tokens hd
    have hpass : Decided c d.tokens
        (sweepTokens o .frozen d.tokens s.assignment s.counts c g).1 :=
      sweepTokens_decided ho hc [] (hlen.trans hs.length_eq.symm) (Document.lt_of_mem_tokens hd)
        hs.topic_lt (by rw [List.append_nil]; exact hs.counts_eq)
        (by rw [List.append_nil, hs.length_eq]; exact hs.hasRoom)
    have hcounts : (sweepTokens o .frozen d.tokens s.assignment s.counts c g).2.1 = c :=
      sweepTokens_frozen
    rw [sweepDocument]
    rcases hswept : sweepTokens o .frozen d.tokens s.assignment s.counts c g with
      ⟨e | ⟨news, tc₁⟩, c₁, g₁⟩
    · rw [hswept] at hpass
      exact ⟨fun _ hx => by (cases hx), fun e' he => hpass.named e' (by cases he; rfl)⟩
    · rw [hswept] at hpass hcounts
      change c₁ = c at hcounts
      subst c₁
      cases n with
      | zero => exact hpass.map fun _ => (⟨tc₁, news⟩ : TopicState)
      | succ n => exact sweepDocument_decided ho hc hd (sweepTokens_fits hs hlen hswept)

theorem sample_decided {d : Document} {s : TopicState} {g : γ} (ho : o.check = .ok ())
    (hc : c.HasShape o.vocSize o.topicNum) (hsweeps : sweeps ≠ 0)
    (hd : d.checkWords (α := ℝ) o.vocSize = .ok ()) (hs : s.Fits d o.topicNum) :
    Decided c d.tokens (sample o .frozen sweeps d s c g).1 := by
  obtain ⟨n, rfl⟩ := Nat.exists_eq_succ_of_ne_zero hsweeps
  have hcheck := checkSample_ok_iff.2 ⟨hsweeps, hc, hd, hs.check (α := ℝ)⟩
  rw [sample, hcheck]
  dsimp only
  split
  · rename_i hempty
    have hnil : d.tokens = [] := by rw [Document.tokens, Document.entries_eq_nil hd hempty]; rfl
    rw [hnil]
    exact .nil
  · exact sweepDocument_decided ho hc hd hs

/-! ## From documents to predictions -/

/-- The words of documents that go with their states, token by token. -/
def pairWords (pairs : List (Document × TopicState)) : List Nat :=
  pairs.flatMap fun x => x.1.tokens

theorem inferAll_decided (ho : o.check = .ok ()) (hc : c.HasShape o.vocSize o.topicNum)
    (hsweeps : sweeps ≠ 0) : ∀ {pairs : List (Document × TopicState)} {g : γ},
    (∀ x ∈ pairs, x.1.checkWords (α := ℝ) o.vocSize = .ok () ∧ x.2.Fits x.1 o.topicNum) →
    Decided c (pairWords pairs) (inferAll o sweeps c pairs g).1
  | [], _, _ => .nil
  | (d, s) :: rest, g, h => by
    obtain ⟨⟨hd, hs⟩, hrest⟩ := List.forall_mem_cons.1 h
    have hone := sample_decided (g := g) ho hc hsweeps hd hs
    rw [inferAll, pairWords, List.flatMap_cons]
    rcases hsampled : sample o .frozen sweeps d s c g with ⟨e | s', c₁, g₁⟩
    · rw [hsampled] at hone
      exact hone.fail
    · rw [hsampled] at hone
      refine .after (hone.clean _ rfl) ?_
      have hothers := inferAll_decided ho hc hsweeps (g := g₁) hrest
      dsimp only
      generalize inferAll o sweeps c rest g₁ = others at hothers ⊢
      obtain ⟨e | states, g'⟩ := others
      · exact hothers
      · exact hothers.map fun states => s' :: states

end

section
variable [Arithmetic] {b : Broadcast ℝ} {sweeps : Nat}

theorem Worker.inferShards_decided (ho : b.options.check = .ok ())
    (hb : b.counts.HasShape b.options.vocSize b.options.topicNum) (hsweeps : sweeps ≠ 0) :
    ∀ {shards : List (Partition × UInt64)},
    (∀ x ∈ shards.flatMap fun x => x.1.pairs,
      x.1.checkWords (α := ℝ) b.options.vocSize = .ok () ∧ x.2.Fits x.1 b.options.topicNum) →
    Decided b.counts (pairWords (shards.flatMap fun x => x.1.pairs)) (inferShards b sweeps shards)
  | [], _ => .nil
  | (p, seed) :: shards, h => by
    rw [List.flatMap_cons] at h
    obtain ⟨hp, hshards⟩ := List.forall_mem_append.1 h
    rw [inferShards, pairWords, List.flatMap_cons, List.flatMap_append]
    refine (inferAll_decided ho hb hsweeps hp).bind fun states _ => ?_
    have hothers := inferShards_decided ho hb hsweeps hshards
    exact hothers.map fun others => states ++ others

/-- A worker is decided by the words of its documents, however they are divided. -/
theorem Worker.infer_decided {γ : Type} [Generator γ] {w : Worker} {g : γ}
    (ho : b.options.check = .ok ())
    (hb : b.counts.HasShape b.options.vocSize b.options.topicNum) (hsweeps : sweeps ≠ 0)
    (hd : ∀ d ∈ w.documents, d.checkWords (α := ℝ) b.options.vocSize = .ok ())
    (hw : w.Assigned b.options.topicNum) :
    Decided b.counts (w.documents.flatMap Document.tokens) (w.infer b sweeps g) := by
  have hpairs : ∀ x ∈ w.pairs,
      x.1.checkWords (α := ℝ) b.options.vocSize = .ok () ∧ x.2.Fits x.1 b.options.topicNum := by
    rw [hw.pairs_eq]
    intro x hx
    exact ⟨hd x.1 (List.of_mem_zip hx).1, (List.forall₂_iff_zip.1 hw.fits).2 hx⟩
  have hwords : pairWords w.pairs = w.documents.flatMap Document.tokens := by
    rw [pairWords, hw.pairs_eq, ← List.flatMap_map Prod.fst Document.tokens,
      List.map_fst_zip (Nat.le_of_eq hw.fits.length_eq)]
  rw [← hwords]
  cases w with
  | single p =>
    rw [pairs, partitions, List.flatMap_singleton] at hpairs ⊢
    exact inferAll_decided ho hb hsweeps hpairs
  | sharded ps =>
    rw [← pairs_zip ps g] at hpairs ⊢
    exact inferShards_decided ho hb hsweeps hpairs

/-- So is a prediction, whatever is drawn. -/
theorem Broadcast.infer_decided {processors : Nat} {ds : List Document} {f : FitOptions ℝ}
    (ho : b.options.check = .ok ())
    (hb : b.counts.HasShape b.options.vocSize b.options.topicNum) (hf : f.check = .ok ())
    (hds : ∀ d ∈ ds, d.checkWords (α := ℝ) b.options.vocSize = .ok ())
    (hroom : ∀ d ∈ ds, Arithmetic.HasRoom d.tokenCount) :
    Decided b.counts (ds.flatMap Document.tokens) (b.infer processors ds f) := by
  obtain ⟨w, g, hinit, rfl, hw⟩ := Worker.init_forCorpus (Model.check_ok_iff.1 ho).2.2.2 hroom
    (partitionsFor processors f.workers) (Xoshiro.ofSeed f.seed)
  have hstates := Worker.infer_decided (g := g) ho hb (predictSweeps_ne_zero hf) hds hw
  rw [infer, hinit, Outcome.ofFault_ok, Outcome.ok_bind]
  exact hstates.map fun states => (w.documents.zip states).map fun x => TopicDocument.of x.1 x.2

end

namespace Model

variable {m : Model ℝ} {s : SavedModel ℝ} {ds : List Document}

/-- A prediction of a restored model is decided by the words of the documents. -/
theorem predict_decided [Arithmetic] {b : Broadcast ℝ} {processors : Nat} {f : FitOptions ℝ}
    (hm : Model.ofSaved s = .ok m) (hb : m.fitted = some b)
    (hds : ∀ d ∈ ds, d.checkWords (α := ℝ) s.vocSize = .ok ())
    (htokens : ∀ d ∈ ds, Arithmetic.HasRoom d.tokenCount) (hf : f.check = .ok ()) :
    Decided b.counts (ds.flatMap Document.tokens) (m.predict processors ds f) := by
  have hreachable := Reachable.ofSaved hm
  obtain ⟨b', hb', -, hshape, hoptions, ho⟩ := fitted_ofSaved hm
  obtain rfl : b' = b := Option.some.inj (hb'.symm.trans hb)
  have hmodel : m.options = s.options := (hreachable.ready b' hb).2.1.symm.trans hoptions
  rw [predict_eq_infer hreachable hb hf (by rwa [hmodel]) htokens]
  rw [← hoptions] at ho
  exact Broadcast.infer_decided ho (by rw [hoptions]; exact hshape) hf (by rwa [hoptions])
    htokens

theorem firstOffence?_documents {c : Counts}
    (hds : ∀ d ∈ ds, d.checkWords (α := ℝ) s.vocSize = .ok ()) :
    c.firstOffence? (ds.flatMap Document.tokens) = none ↔
      ∀ d ∈ ds, ∀ word ∈ d.words, ∀ topic < c.topicNum, ¬ c.Offends word topic := by
  rw [Counts.firstOffence?_eq_none_iff, List.forall_mem_flatMap]
  refine forall₂_congr fun d hd => forall_congr' fun word => ?_
  rw [Document.mem_tokens (hds d hd)]

end Model

namespace Restored

open Counts (HasRoom)

variable {s : SavedModel ℝ} {r : Restored ℝ} {ds : List Document}

/-- Whether a prediction of a restored model fails is not left to chance, if its layout has room.
With documents and options that pass their checks it succeeds just if no document has a word with a
topic whose count for the word or whose total is negative. Otherwise every prediction, with any
seed, any number of workers and any number of passes, reports a degenerate weight for the same word
and topic: the first token, documents in order, whose word has such a topic, and the lowest of its
topics. -/
theorem predict_decided_by_signs [Arithmetic] (hr : s.restore = .ok r)
    (hroom : HasRoom s.vocSize s.topicNum)
    (hds : ∀ d ∈ ds, d.checkWords (α := ℝ) s.vocSize = .ok ())
    (htokens : ∀ d ∈ ds, Arithmetic.HasRoom d.tokenCount) :
    ∃ m b, r = .model m ∧ m.fitted = some b ∧ b.counts.flat = s.flat.toArray ∧
      b.counts.HasShape s.vocSize s.topicNum ∧
      (∀ processors f, f.check = .ok () →
        ((∃ outputs, r.predict processors ds f = .ok outputs) ↔
          ∀ d ∈ ds, ∀ word ∈ d.words, ∀ topic < s.topicNum, ¬ b.counts.Offends word topic)) ∧
      ((∃ d ∈ ds, ∃ word ∈ d.words, ∃ topic < s.topicNum, b.counts.Offends word topic) →
        ∃ before word after topic, ds.flatMap Document.tokens = before ++ word :: after ∧
          (∀ w ∈ before, ∀ k < s.topicNum, ¬ b.counts.Offends w k) ∧ topic < s.topicNum ∧
          b.counts.Offends word topic ∧ (∀ k < topic, ¬ b.counts.Offends word k) ∧
          ∀ processors f, f.check = .ok () → ∃ weight, r.predict processors ds f =
            .error (.error (.degenerateWeights word topic weight))) := by
  obtain ⟨-, m, hm, rfl⟩ | ⟨hnone, -⟩ := SavedModel.restore_ok_iff.1 hr
  swap
  · exact absurd hroom hnone
  obtain ⟨b, hb, hflat, hshape, -⟩ := Model.fitted_ofSaved hm
  have hdecided : ∀ processors f, f.check = .ok () → Decided b.counts (ds.flatMap Document.tokens)
      ((Restored.model m).predict processors ds f) := fun _ _ hf =>
    Model.predict_decided hm hb hds htokens hf
  have hnone := Model.firstOffence?_documents (c := b.counts) hds
  refine ⟨m, b, rfl, hb, hflat, hshape, fun processors f hf => ?_, fun hoffended => ?_⟩
  · rw [(hdecided processors f hf).ok_iff, hnone, hshape.2]
  · cases hfirst : b.counts.firstOffence? (ds.flatMap Document.tokens) with
    | none =>
      obtain ⟨d, hd, word, hword, topic, htopic, hoffends⟩ := hoffended
      exact absurd hoffends (hnone.1 hfirst d hd word hword topic (hshape.2 ▸ htopic))
    | some offence =>
      obtain ⟨word, topic⟩ := offence
      obtain ⟨before, after, hwords, hbefore, htopic, hoffends, hlowest⟩ :=
        Counts.firstOffence?_eq_some_iff.1 hfirst
      rw [hshape.2] at hbefore htopic
      exact ⟨before, word, after, topic, hwords, hbefore, htopic, hoffends, hlowest,
        fun processors f hf => (hdecided processors f hf).error_of_first hfirst⟩

/-- A model with one negative count, of the first word with the second topic. A document without the
word has a prediction; with a second document that has it, every prediction names both. -/
theorem predict_decided_by_signs_one_negative :
    let s : SavedModel ℝ := ⟨3, 2, 1, 1, 5, [2, -1, 0, 4, 0, 3, 9, 9]⟩
    let d : Document := ⟨0, [2, 1], [1, 2]⟩
    let d' : Document := ⟨1, [1, 0], [1, 1]⟩
    let f (seed : UInt64) (workers : Int) : FitOptions ℝ :=
      { FitOptions.standard with seed, iters := 5, workers }
    HasRoom s.vocSize s.topicNum ∧
    ∃ r, s.restore = .ok r ∧ (∃ outputs, r.predict 1 [d] (f 7 2) = .ok outputs) ∧
      ∀ seed workers, ∃ weight, r.predict 1 [d, d'] (f seed workers) =
        .error (.error (.degenerateWeights 0 1 weight)) := by
  intro s d d' f
  have hroom : HasRoom 3 2 := by decide
  have hoptions : s.options.check = .ok () := Model.check_ok_iff.2
    ⟨isProper_iff.2 one_pos, isProper_iff.2 one_pos, by decide, by decide⟩
  have hf : ∀ seed workers, (f seed workers).check = .ok () := fun _ _ =>
    check_standard (by decide)
  have hrestored : s.restore = .ok (.model ⟨s.options,
      some ⟨s.options, ⟨3, 2, #[2, -1, 0, 4, 0, 3, 9, 9], rfl⟩, 5⟩, []⟩) := by
    rw [SavedModel.restore_of_room hroom, Model.ofSaved, hoptions]
    rfl
  have hd : ∀ x ∈ [d], x.checkWords (α := ℝ) 3 = .ok () := by decide
  have hds : ∀ x ∈ [d, d'], x.checkWords (α := ℝ) 3 = .ok () := by decide
  refine ⟨hroom, _, hrestored, ?_, fun seed workers => ?_⟩
  · obtain ⟨_, b, hmodel, hb, -, -, hiff, -⟩ :=
      predict_decided_by_signs hrestored hroom hd (by decide)
    cases hmodel
    cases hb
    exact (hiff 1 (f 7 2) (hf 7 2)).2 (by decide)
  · obtain ⟨_, b, hmodel, hb, -, -, -, hnamed⟩ :=
      predict_decided_by_signs hrestored hroom hds (by decide)
    cases hmodel
    cases hb
    obtain ⟨before, word, after, topic, hwords, -, htopic, hoffends, -, herror⟩ :=
      hnamed (by decide)
    have hword : word ∈ [2, 1, 1, 1, 0] := by
      rw [show [2, 1, 1, 1, 0] = [d, d'].flatMap Document.tokens from rfl, hwords]
      exact List.mem_append_right _ List.mem_cons_self
    have honly : ∀ w ∈ [2, 1, 1, 1, 0], ∀ k < 2,
        (⟨3, 2, #[2, -1, 0, 4, 0, 3, 9, 9], rfl⟩ : Counts).Offends w k → w = 0 ∧ k = 1 := by
      decide
    obtain ⟨rfl, rfl⟩ := honly word hword topic htopic hoffends
    exact herror 1 _ (hf seed workers)

/-- What passes for a model though its layout has no room fails with no count that is negative. -/
theorem predict_without_negative_counts :
    let s : SavedModel ℝ := ⟨18446744073709551615, 1, 1, 1, 0, []⟩
    let d : Document := ⟨0, [0], [1]⟩
    (∀ n ∈ s.flat, 0 ≤ n) ∧ d.checkWords (α := ℝ) s.vocSize = .ok () ∧
      ∃ r, s.restore = .ok r ∧ ∀ f : FitOptions ℝ, f.check = .ok () →
        ¬ ∃ outputs, r.predict 1 [d] f = .ok outputs := by
  intro s d
  have hoptions : s.options.check = .ok () := Model.check_ok_iff.2
    ⟨isProper_iff.2 one_pos, isProper_iff.2 one_pos, by decide, by decide⟩
  have hd : d.checkWords (α := ℝ) s.vocSize = .ok () := by decide +kernel
  refine ⟨List.forall_mem_nil _, hd, _, SavedModel.restore_hollow (by decide) hoptions (by decide),
    fun f hf ⟨outputs, h⟩ => ?_⟩
  have hds : Model.checkDocuments s.options [d] = .ok () :=
    Model.checkDocuments_ok_iff.2 (List.forall_mem_singleton.2 hd)
  rw [predict_hollow hf hds ⟨d, by simp, rfl⟩] at h
  cases h

end Restored

end TopicModel
