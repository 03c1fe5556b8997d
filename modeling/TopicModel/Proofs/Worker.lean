import Mathlib
import TopicModel.Proofs.Chunks
import TopicModel.Proofs.Partition
import TopicModel.Worker

/-!
# Workers between operations

What holds of a partition holds of a worker, which is a list of them. `forCorpus` keeps every
document in its place (`documents_forCorpus`); `w.Assigned K` is established by `init_ok` and kept
by every sweep (`Assigned.sweep`), against any model and however many shards a failure leaves
unswept. The merged tally is that of the documents gathered one by one (`tally_eq_addPairs`) and
holds the tokens of all partitions (`Assigned.tally`); the results annotate the documents in order
(`Assigned.results`).
-/

namespace TopicModel

open Arithmetic (HasRoom)

variable {α γ : Type} {K V : Nat}

/-- The output of a document: the document itself with its announced number of tokens and a state
that fits it. -/
structure TopicDocument.Annotates [Arithmetic] (out : TopicDocument) (d : Document) (K : Nat) :
    Prop where
  document_eq : out.document = d
  tokenCount_eq : out.tokenCount = d.counts.sum
  fits : out.topics.Fits d K

/-- There is room for the number of tokens of the documents, as there is if they can be given a
topic each in memory. -/
def TokensHaveRoom [Arithmetic] (ds : List Document) : Prop :=
  HasRoom (ds.map Document.tokenCount).sum

instance [Arithmetic] (ds : List Document) : Decidable (TokensHaveRoom ds) :=
  inferInstanceAs (Decidable (HasRoom _))

theorem TokensHaveRoom.of_mem [Arithmetic] {ds : List Document} {d : Document}
    (h : TokensHaveRoom ds) (hd : d ∈ ds) : HasRoom d.tokenCount :=
  HasRoom.mono h (List.le_sum_of_mem (List.mem_map_of_mem hd))

/-- The tokens of an output, each with its topic. -/
def TopicDocument.assignedTokens (out : TopicDocument) : List (Nat × Nat) :=
  out.document.assigned out.topics.assignment

namespace Partition

variable {p : Partition}

theorem assignedTokens_results (p : Partition) :
    p.results.flatMap TopicDocument.assignedTokens = p.tokens := by
  rw [results, List.flatMap_map]
  rfl

section
variable [Arithmetic]

theorem annotates_results : ∀ {ds : List Document} {ss : List TopicState},
    List.Forall₂ (fun d s => s.Fits d K) ds ss →
    List.Forall₂ (fun out d => TopicDocument.Annotates out d K)
      ((ds.zip ss).map fun (d, s) => TopicDocument.of d s) ds
  | [], [], .nil => .nil
  | _ :: _, _ :: _, .cons hs hss => .cons ⟨rfl, rfl, hs⟩ (annotates_results hss)

theorem within_stateTokens : ∀ {ds : List Document} {ss : List TopicState},
    (∀ d ∈ ds, d.checkWords (α := α) V = .ok ()) → List.Forall₂ (fun d s => s.Fits d K) ds ss →
    Counts.Within V K (stateTokens (ds.zip ss)) ∧
      (stateTokens (ds.zip ss)).map Prod.fst = ds.flatMap Document.tokens
  | [], [], _, .nil => ⟨by simp [Counts.Within], rfl⟩
  | d :: ds, s :: ss, hd, .cons hs hss => by
    obtain ⟨hdoc, hds⟩ := List.forall_mem_cons.1 hd
    obtain ⟨hin, hfst⟩ := within_stateTokens hds hss
    rw [List.zip_cons_cons, stateTokens_cons]
    refine ⟨fun x hx => ?_, ?_⟩
    · rcases List.mem_append.1 hx with hx | hx
      · exact Document.within_assigned hdoc hs.topic_lt x hx
      · exact hin x hx
    · rw [List.map_append, Document.map_fst_assigned hdoc hs.length_eq, hfst, List.flatMap_cons]

end

end Partition

namespace Worker

variable {w : Worker} {o : Options α} {b : Broadcast α}

theorem length_drawWords [Generator γ] (n : Nat) (g : γ) : (drawWords n g).1.length = n := by
  induction n generalizing g with
  | zero => rfl
  | succ n ih =>
    rw [drawWords]
    exact congrArg (· + 1) (ih _)

/-- The documents of the corpus, in order. -/
def documents (w : Worker) : List Document := w.partitions.flatMap Partition.documents

/-- The states of the documents, in order. -/
def states (w : Worker) : List TopicState := w.partitions.flatMap Partition.states

/-- The documents that have a state, with it. -/
def pairs (w : Worker) : List (Document × TopicState) := w.partitions.flatMap Partition.pairs

/-- The tokens of the corpus with their topics. -/
def tokens (w : Worker) : List (Nat × Nat) := w.partitions.flatMap Partition.tokens

/-- Every partition is assigned. -/
def Assigned [Arithmetic] (w : Worker) (K : Nat) : Prop := ∀ p ∈ w.partitions, p.Assigned K

/-! ## The corpus -/

theorem documents_ofChunks : ∀ (chunks : List (List Document)) (i : Nat),
    ((chunks.zipIdx i).map fun (part, i) => Partition.ofDocuments part i).flatMap
      Partition.documents = chunks.flatten
  | [], _ => rfl
  | chunk :: chunks, i => by
    rw [List.zipIdx_cons, List.map_cons, List.flatMap_cons, documents_ofChunks chunks (i + 1)]
    rfl

theorem cache_ofChunks (chunks : List (List Document)) (i : Nat) :
    ∀ p ∈ (chunks.zipIdx i).map fun (part, i) => Partition.ofDocuments part i,
      p.cache.entry = none := by
  intro p hp
  obtain ⟨⟨chunk, i⟩, -, rfl⟩ := List.mem_map.1 hp
  rfl

theorem documents_shard {ds : List Document} {n : Nat} : (shard ds n).documents = ds := by
  rw [documents, shard, partitions, documents_ofChunks, flatten_chunked]

theorem cache_shard {ds : List Document} {n : Nat} :
    ∀ p ∈ (shard ds n).partitions, p.cache.entry = none := cache_ofChunks _ 0

theorem documents_forCorpus (ds : List Document) (n : Nat) : (forCorpus ds n).documents = ds := by
  unfold forCorpus
  split
  · exact List.append_nil ds
  · exact documents_shard

theorem cache_forCorpus (ds : List Document) (n : Nat) :
    ∀ p ∈ (forCorpus ds n).partitions, p.cache.entry = none := by
  unfold forCorpus
  split
  · exact List.forall_mem_singleton.2 rfl
  · exact cache_shard

/-- With a state for every document no document is left out. -/
theorem flatMap_pairs : ∀ {ps : List Partition},
    (∀ p ∈ ps, p.states.length = p.documents.length) →
    ps.flatMap Partition.pairs =
      (ps.flatMap Partition.documents).zip (ps.flatMap Partition.states)
  | [], _ => rfl
  | p :: ps, h => by
    obtain ⟨hp, hps⟩ := List.forall_mem_cons.1 h
    rw [List.flatMap_cons, List.flatMap_cons, List.flatMap_cons, flatMap_pairs hps,
      List.zip_append hp.symm]
    rfl

theorem tokens_eq (w : Worker) : w.tokens = stateTokens w.pairs := List.flatMap_assoc.symm

theorem assignedTokens_results (w : Worker) :
    w.results.flatMap TopicDocument.assignedTokens = w.tokens := by
  rw [results, List.flatMap_assoc, tokens]
  exact congrArg (w.partitions.flatMap ·) (funext Partition.assignedTokens_results)

variable [Arithmetic]

theorem Assigned.pairs_eq (hw : w.Assigned K) : w.pairs = w.documents.zip w.states :=
  flatMap_pairs fun p hp => (hw p hp).fits.length_eq.symm

/-- Every document has a state that fits it, in order. -/
theorem Assigned.fits (hw : w.Assigned K) :
    List.Forall₂ (fun d s => TopicState.Fits s d K) w.documents w.states := by
  unfold documents states
  unfold Assigned at hw
  generalize w.partitions = ps at hw
  induction ps with
  | nil => exact .nil
  | cons p ps ih =>
    obtain ⟨hp, hps⟩ := List.forall_mem_cons.1 hw
    exact List.rel_append hp.fits (ih hps)

section
variable [Generator γ]

theorem initAll_ok (hK : 0 < K) : ∀ (ps : List Partition), (∀ p ∈ ps, p.cache.entry = none) →
    (∀ p ∈ ps, ∀ d ∈ p.documents, HasRoom d.tokenCount) → ∀ g : γ,
    ∃ ps' g', initAll K ps g = .ok (ps', g') ∧
      ps'.map Partition.documents = ps.map Partition.documents ∧ ∀ p ∈ ps', p.Assigned K
  | [], _, _, g => ⟨[], g, rfl, rfl, by simp⟩
  | p :: ps, hps, hroom, g => by
    obtain ⟨hp, hps⟩ := List.forall_mem_cons.1 hps
    obtain ⟨hd, hds⟩ := List.forall_mem_cons.1 hroom
    obtain ⟨p', g₁, hinit, hdocs, hp'⟩ := Partition.init_ok hK hp hd g
    obtain ⟨ps', g₂, hrest, hdocs', hps'⟩ := initAll_ok hK ps hps hds g₁
    refine ⟨p' :: ps', g₂, ?_, by rw [List.map_cons, List.map_cons, hdocs, hdocs'],
      List.forall_mem_cons.2 ⟨hp', hps'⟩⟩
    simp only [initAll, hinit, Outcome.ok_bind, hrest]
    rfl

/-- Drawing topics succeeds and leaves the documents as they are. -/
theorem init_ok (hK : 0 < K) (hw : ∀ p ∈ w.partitions, p.cache.entry = none)
    (hroom : ∀ d ∈ w.documents, HasRoom d.tokenCount) (g : γ) :
    ∃ w' g', w.init K g = .ok (w', g') ∧ w'.documents = w.documents ∧ w'.Assigned K := by
  have hroom : ∀ p ∈ w.partitions, ∀ d ∈ p.documents, HasRoom d.tokenCount :=
    fun p hp d hd => hroom d (List.mem_flatMap.2 ⟨p, hp, hd⟩)
  cases w with
  | single p =>
    obtain ⟨p', g', hinit, hdocs, hp⟩ := Partition.init_ok hK (hw p List.mem_cons_self)
      (hroom p List.mem_cons_self) g
    refine ⟨single p', g', ?_, congrArg (· ++ []) hdocs, List.forall_mem_singleton.2 hp⟩
    rw [init, hinit]
    rfl
  | sharded ps =>
    obtain ⟨ps', g', hinit, hdocs, hps⟩ := initAll_ok hK ps hw hroom g
    refine ⟨sharded ps', g', ?_, ?_, hps⟩
    · rw [init, hinit]
      rfl
    · exact congrArg List.flatten hdocs

/-- So does drawing topics for a corpus, however it is divided. -/
theorem init_forCorpus (hK : 0 < K) {ds : List Document}
    (hroom : ∀ d ∈ ds, HasRoom d.tokenCount) (n : Nat) (g : γ) :
    ∃ w g', (forCorpus ds n).init K g = .ok (w, g') ∧ w.documents = ds ∧ w.Assigned K := by
  obtain ⟨w, g', hinit, hdocs, hw⟩ := init_ok hK (cache_forCorpus ds n)
    (by rwa [documents_forCorpus]) g
  exact ⟨w, g', hinit, hdocs.trans (documents_forCorpus ds n), hw⟩

end

/-! ## Sweeps -/

section
variable [Scalar α] [Generator γ]

theorem sweepShards_assigned (b : Broadcast α) (mode : SampleMode) (sweeps : Nat) :
    ∀ (ps : List Partition) (seeds : List UInt64), (∀ p ∈ ps, p.Assigned K) →
    (sweepShards b mode sweeps ps seeds).2.map Partition.documents = ps.map Partition.documents ∧
      ∀ p ∈ (sweepShards b mode sweeps ps seeds).2, p.Assigned K
  | [], _, hps => ⟨rfl, hps⟩
  | _ :: _, [], hps => ⟨rfl, hps⟩
  | p :: ps, seed :: seeds, hps => by
    obtain ⟨hp, hps⟩ := List.forall_mem_cons.1 hps
    have hdocs := Partition.sweep_documents hp.cache_empty b mode sweeps (Xoshiro.ofSeed seed)
    have hp' := hp.sweep b mode sweeps (Xoshiro.ofSeed seed)
    obtain ⟨hdocs', hps'⟩ := sweepShards_assigned b mode sweeps ps seeds hps
    rw [sweepShards]
    generalize p.sweep b mode sweeps (Xoshiro.ofSeed seed) = swept at hdocs hp'
    obtain ⟨_ | u, p', g'⟩ := swept
    -- a shard that fails leaves the shards after it unswept
    · exact ⟨by rw [List.map_cons, List.map_cons, hdocs], List.forall_mem_cons.2 ⟨hp', hps⟩⟩
    · exact ⟨by rw [List.map_cons, List.map_cons, hdocs, hdocs'],
        List.forall_mem_cons.2 ⟨hp', hps'⟩⟩

/-- A sweep keeps the documents and leaves each a state that fits it, also when it fails, whatever
model it is made against. -/
theorem Assigned.sweep (hw : w.Assigned K) (b : Broadcast α) (mode : SampleMode) (sweeps : Nat)
    (g : γ) : (w.sweep b mode sweeps g).2.1.documents = w.documents ∧
      (w.sweep b mode sweeps g).2.1.Assigned K := by
  cases w with
  | single p =>
    have hp := hw p List.mem_cons_self
    exact ⟨congrArg (· ++ []) (Partition.sweep_documents hp.cache_empty b mode sweeps g),
      List.forall_mem_singleton.2 (hp.sweep b mode sweeps g)⟩
  | sharded ps =>
    have hswept := sweepShards_assigned b mode sweeps ps (drawWords ps.length g).1 hw
    exact ⟨congrArg List.flatten hswept.1, hswept.2⟩

end

/-! ## Tallies and results -/

/-- Partitions that are gathered one by one stop at the first document that is refused. -/
theorem mapM_tally_refused {e : Error α} : ∀ {ps : List Partition},
    (ps.flatMap Partition.pairs).findSome? (Partition.refusal? o) = some e →
    ps.mapM (fun p => p.tally o) = .error (.error e)
  | [], h => by cases h
  | p :: ps, h => by
    rw [List.flatMap_cons, List.findSome?_append] at h
    rw [List.mapM_cons]
    cases hp : p.pairs.findSome? (Partition.refusal? o) with
    | some e' =>
      rw [hp] at h
      cases h
      rw [Partition.tally, Partition.addPairs_refused Tally.holds_empty hp]
      rfl
    | none =>
      rw [hp] at h
      obtain ⟨t, ht, -⟩ := Partition.addPairs_holds (α := α) Tally.holds_empty
        (List.findSome?_eq_none_iff.1 hp)
      rw [Partition.tally, ht, Outcome.ok_bind, mapM_tally_refused h]
      rfl

theorem mapM_tally_holds : ∀ (ps : List Partition),
    (∀ x ∈ ps.flatMap Partition.pairs, Partition.refusal? o x = none) →
    ∃ ts, ps.mapM (fun p => p.tally o) = .ok ts ∧
      List.Forall₂ (fun t p => Tally.Holds t o.vocSize o.topicNum p.tokens ∧
        t.isEmpty = p.pairs.isEmpty) ts ps
  | [], _ => ⟨[], rfl, .nil⟩
  | p :: ps, h => by
    rw [List.flatMap_cons] at h
    obtain ⟨hp, hps⟩ := List.forall_mem_append.1 h
    obtain ⟨t, htally, ht, hempty⟩ := Partition.addPairs_holds Tally.holds_empty hp
    obtain ⟨ts, hrest, hts⟩ := mapM_tally_holds ps hps
    refine ⟨t :: ts, ?_, .cons ⟨ht, hempty⟩ hts⟩
    rw [List.mapM_cons, Partition.tally, htally, hrest]
    rfl

theorem mergeAll_holds : ∀ {ts : List Tally} {ps : List Partition} {t : Tally}
    {xs : List (Nat × Nat)}, t.Holds V K xs →
    List.Forall₂ (fun t p => Tally.Holds t V K p.tokens ∧ t.isEmpty = p.pairs.isEmpty) ts ps →
    ∃ r, mergeAll (α := α) ts t = .ok r ∧ r.Holds V K (xs ++ ps.flatMap Partition.tokens) ∧
      r.isEmpty = (t.isEmpty && (ps.flatMap Partition.pairs).isEmpty)
  | [], [], t, _, ht, .nil => ⟨t, rfl, by simpa using ht, by simp⟩
  | u :: ts, p :: ps, t, xs, ht, .cons ⟨hu, hpairs⟩ hts => by
    obtain ⟨s, hadd, hs⟩ := ht.add? hu
    obtain ⟨r, hrest, hr, hempty⟩ := mergeAll_holds hs hts
    refine ⟨r, ?_, by rwa [List.flatMap_cons, ← List.append_assoc], ?_⟩
    · rw [mergeAll, Tally.merge_of_add? hadd]
      exact hrest
    · rw [hempty, Tally.isEmpty_add? hadd, hpairs, List.flatMap_cons, Bool.and_assoc]
      cases p.pairs <;> simp

/-- However a corpus is divided, its tally is that of its documents gathered one by one: the same
tally, or the failure of the first document that is refused. -/
theorem tally_eq_addPairs (w : Worker) (o : Options α) :
    w.tally o = Partition.addPairs o w.pairs .empty := by
  cases w with
  | single p => rw [Worker.tally, Partition.tally, pairs, partitions, List.flatMap_singleton]
  | sharded ps =>
    rw [Worker.tally, pairs, partitions]
    cases hfirst : (ps.flatMap Partition.pairs).findSome? (Partition.refusal? o) with
    | some e =>
      rw [mapM_tally_refused hfirst, Partition.addPairs_refused Tally.holds_empty hfirst]
      rfl
    | none =>
      have hnone := List.findSome?_eq_none_iff.1 hfirst
      obtain ⟨ts, hts, hholds⟩ := mapM_tally_holds ps hnone
      obtain ⟨r, hr, hrh, hrempty⟩ := mergeAll_holds (α := α) Tally.holds_empty hholds
      obtain ⟨u, hu, huh, huempty⟩ := Partition.addPairs_holds Tally.holds_empty hnone
      have htokens : ps.flatMap Partition.tokens = stateTokens (ps.flatMap Partition.pairs) :=
        tokens_eq (sharded ps)
      rw [htokens] at hrh
      rw [hts, hu, Outcome.ok_bind, hr, Outcome.ofCheck_ok,
        hrh.unique huh (hrempty.trans huempty.symm)]

/-- A tally of a corpus holds its tokens. -/
theorem holds_of_tally {t : Tally} (h : w.tally o = .ok t) :
    t.Holds o.vocSize o.topicNum w.tokens := by
  rw [tally_eq_addPairs] at h
  cases hfirst : w.pairs.findSome? (Partition.refusal? o) with
  | some e =>
    rw [Partition.addPairs_refused Tally.holds_empty hfirst] at h
    cases h
  | none =>
    obtain ⟨u, hu, hh, -⟩ := Partition.addPairs_holds (α := α) Tally.holds_empty
      (List.findSome?_eq_none_iff.1 hfirst)
    rw [hu] at h
    cases h
    rw [tokens_eq]
    exact hh

/-- The tally of a corpus of checked documents holds its tokens. -/
theorem Assigned.tally (hw : w.Assigned o.topicNum)
    (hd : ∀ d ∈ w.documents, d.checkWords (α := α) o.vocSize = .ok ()) :
    ∃ t, w.tally o = .ok t ∧ t.Holds o.vocSize o.topicNum w.tokens := by
  have haccepted : ∀ x ∈ w.pairs, Partition.refusal? o x = none := by
    intro x hx
    obtain ⟨p, hp, hx⟩ := List.mem_flatMap.1 hx
    exact (hw p hp).accepted (fun d hd' => hd d (List.mem_flatMap.2 ⟨p, hp, hd'⟩)) x hx
  obtain ⟨t, ht, hh, -⟩ := Partition.addPairs_holds Tally.holds_empty haccepted
  rw [tally_eq_addPairs, tokens_eq]
  exact ⟨t, ht, hh⟩

theorem Assigned.results_eq (hw : w.Assigned K) :
    w.results = (w.documents.zip w.states).map fun (d, s) => TopicDocument.of d s := by
  rw [← hw.pairs_eq, pairs, List.map_flatMap]
  rfl

/-- The results are one output for each document, in order. -/
theorem Assigned.results (hw : w.Assigned K) :
    List.Forall₂ (fun out d => TopicDocument.Annotates out d K) w.results w.documents := by
  rw [hw.results_eq]
  exact Partition.annotates_results hw.fits

theorem Assigned.within (hw : w.Assigned K)
    (hd : ∀ d ∈ w.documents, d.checkWords (α := α) V = .ok ()) :
    Counts.Within V K w.tokens ∧ w.tokens.map Prod.fst = w.documents.flatMap Document.tokens := by
  rw [tokens_eq, hw.pairs_eq]
  exact Partition.within_stateTokens hd hw.fits

theorem Assigned.hasRoom (hw : w.Assigned K)
    (hd : ∀ d ∈ w.documents, d.checkWords (α := α) V = .ok ())
    (hroom : TokensHaveRoom w.documents) : HasRoom w.tokens.length := by
  have hlen : w.tokens.length = (w.documents.map Document.tokenCount).sum := by
    rw [← List.length_map Prod.fst, (hw.within hd).2, List.length_flatMap]
    exact congrArg List.sum (List.map_congr_left fun d hd' => Document.length_tokens (hd d hd'))
  rw [hlen]
  exact hroom

end Worker

end TopicModel
