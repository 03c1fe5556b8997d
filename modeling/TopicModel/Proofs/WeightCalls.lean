import Mathlib
import TopicModel.Proofs.Worker

/-!
# The counts that weights are computed from

`Worker.weightCalls` lists every computation of topic weights that a training sweep makes, in each
partition from the document's counts and the partition's copy of the model's counts as they are at
that token. Each `WeightCall` names the partition's other tokens, those resampled before with their
new topics and those still to come with their old ones.

A call is `Covered` if all counts it can read are there, are not negative, and are at least those of
the other tokens. The calls of a computation explain it (`Explains`) if all are covered and a
failure of the computation is raised by one of them, at a weight that is not proper although it was
computed from counts that are not negative. This is kept from a token (`explains_passCalls`) to a
document, a scan, a partition and a worker (`Worker.explains_weightCalls`); what carries it is that
the copy of the counts extends those of the other partitions by the partition's tokens, and that
there is room for the number of all tokens.
-/

namespace TopicModel

open Arithmetic (signed HasRoom)

/-- The arguments of a computation of weights, and the tokens of the partition other than the one
that is resampled. -/
structure WeightCall where
  word : Nat
  topicCounts : List Int
  counts : Counts
  others : List (Nat × Nat)

namespace WeightCall

variable {α τ τ' τ'' : Type} {call : WeightCall} {o : Options α} {e : Failure α}

/-- The weights that are computed. -/
def weights [Arithmetic] [Scalar α] (call : WeightCall) (o : Options α) : List α × Outcome α α :=
  topicWeights o call.counts call.word o.topicNum call.topicCounts

/-- The call for a token that is taken out of its topic. -/
def ofToken [Arithmetic] (word old : Nat) (topicCounts : List Int) (counts : Counts)
    (others : List (Nat × Nat)) : WeightCall :=
  ⟨word, topicCounts.modify old fun n => signed (n - 1), counts.decrement word old, others⟩

/-- The counts of the call exist, are not negative and hold the other tokens. -/
structure Covered (call : WeightCall) (o : Options α) : Prop where
  word_lt : call.word < o.vocSize
  vocSize_eq : call.counts.vocSize = o.vocSize
  topicNum_eq : call.counts.topicNum = o.topicNum
  length_eq : call.topicCounts.length = o.topicNum
  topicCount : ∀ n ∈ call.topicCounts, 0 ≤ n
  entry : ∀ word < o.vocSize, ∀ topic < o.topicNum, ∃ n, call.counts.entry? word topic = some n ∧
    0 ≤ n ∧ (call.others.count (word, topic) : Int) ≤ n
  total : ∀ topic < o.topicNum, ∃ n, call.counts.total? topic = some n ∧
    0 ≤ n ∧ ((call.others.map Prod.snd).count topic : Int) ≤ n

/-- The failure names a weight of the call that is not proper, and was computed from counts that are
not negative. -/
def Raises [Scalar α] (call : WeightCall) (o : Options α) (e : Failure α) : Prop :=
  ∃ topic inDocument ofWord ofTopic, call.topicCounts[topic]? = some inDocument ∧
    call.counts.entry? call.word topic = some ofWord ∧ call.counts.total? topic = some ofTopic ∧
    0 ≤ inDocument ∧ 0 ≤ ofWord ∧ 0 ≤ ofTopic ∧
    Scalar.isProper (conditional o inDocument ofWord ofTopic) = false ∧
    e = .error (.degenerateWeights call.word topic (conditional o inDocument ofWord ofTopic))

/-- All calls are covered, and the computation that makes them fails only if one of them raises its
failure. -/
structure Explains [Scalar α] (calls : List WeightCall) (o : Options α) (result : Outcome α τ) :
    Prop where
  covered : ∀ call ∈ calls, call.Covered o
  raised : ∀ e, result = .error e → ∃ call ∈ calls, call.Raises o e

section
variable [Scalar α] {calls calls' : List WeightCall} {result : Outcome α τ}
  {result' : Outcome α τ'}

theorem explains_ok {x : τ} : Explains [] o (.ok x : Outcome α τ) :=
  ⟨by simp, fun _ h => by cases h⟩

/-- A computation in two parts, which fails only if one of them does. -/
theorem Explains.append (h : Explains calls o result) (h' : Explains calls' o result')
    {whole : Outcome α τ''} (he : ∀ e, whole = .error e → result = .error e ∨ result' = .error e) :
    Explains (calls ++ calls') o whole := by
  refine ⟨List.forall_mem_append.2 ⟨h.covered, h'.covered⟩, fun e hw => ?_⟩
  rcases he e hw with he | he
  · obtain ⟨call, hc, hraises⟩ := h.raised e he
    exact ⟨call, List.mem_append_left _ hc, hraises⟩
  · obtain ⟨call, hc, hraises⟩ := h'.raised e he
    exact ⟨call, List.mem_append_right _ hc, hraises⟩

/-- A computation that ends with the failure of its first part. -/
theorem Explains.fail (h : Explains calls o result) (he : result = .error e) :
    Explains (calls ++ []) o (.error e : Outcome α τ') :=
  h.append (explains_ok (x := ())) fun _ hw => by
    cases hw
    exact .inl he

theorem Covered.raises [Arithmetic] (h : call.Covered o) (he : (call.weights o).2 = .error e) :
    call.Raises o e := by
  obtain ⟨topic, x, hx, hbad, -, rfl⟩ := weightsFrom_error
    (by rw [h.vocSize_eq]; exact Nat.le_of_lt h.word_lt) h.length_eq
    (by rw [h.topicNum_eq, Nat.zero_add]) he
  rw [Nat.zero_add] at hbad
  rw [Nat.zero_add]
  have hlt : topic < o.topicNum := by
    rw [← h.length_eq]
    exact (List.getElem?_eq_some_iff.1 hx).1
  obtain ⟨n, hn, hn0, -⟩ := h.entry call.word h.word_lt topic hlt
  obtain ⟨m, hm, hm0, -⟩ := h.total topic hlt
  rw [Counts.value, hn, Option.getD_some, Counts.value, ← Counts.total?, hm,
    Option.getD_some] at hbad
  rw [Counts.value, hn, Option.getD_some, Counts.value, ← Counts.total?, hm, Option.getD_some]
  refine ⟨topic, x, n, m, hx, hn, hm, h.topicCount x (List.mem_of_getElem? hx), hn0, hm0, ?_, rfl⟩
  rcases hbad with hbad | hbad | hbad
  · omega
  · omega
  · exact hbad

end

/-- Counts of the other tokens and of some more cover a call. -/
theorem covered_of_tallies [Arithmetic] {frozen : List (Nat × Nat)}
    (ht : call.counts.Tallies o.vocSize o.topicNum (call.others ++ frozen))
    (hroom : HasRoom (call.others ++ frozen).length) (hw : call.word < o.vocSize)
    (hlen : call.topicCounts.length = o.topicNum) (hn : ∀ n ∈ call.topicCounts, 0 ≤ n) :
    call.Covered o where
  word_lt := hw
  vocSize_eq := ht.vocSize_eq
  topicNum_eq := ht.topicNum_eq
  length_eq := hlen
  topicCount := hn
  entry w hw k hk := by
    refine ⟨_, ht.entry w hw k hk, ?_⟩
    rw [hroom.mono List.count_le_length, List.count_append]
    omega
  total k hk := by
    refine ⟨_, ht.total k hk, ?_⟩
    have hle : ((call.others ++ frozen).map Prod.snd).count k ≤ (call.others ++ frozen).length :=
      List.count_le_length.trans (Nat.le_of_eq (List.length_map _))
    rw [hroom.mono hle, List.map_append, List.count_append]
    omega

end WeightCall

open WeightCall

variable {α γ : Type} [Arithmetic] [Scalar α] [Generator γ]

/-! ## Calls -/

/-- The calls of one pass over the tokens, besides which the partition has `others`. -/
def passCalls (o : Options α) : (tokens topics : List Nat) → (topicCounts : List Int) → Counts → γ →
    (others : List (Nat × Nat)) → List WeightCall
  | word :: tokens, old :: topics, topicCounts, counts, g, others =>
    ofToken word old topicCounts counts (tokens.zip topics ++ others) ::
      match resampleToken o .train word old topicCounts counts g with
      | (.error _, _, _) => []
      | (.ok (new, topicCounts), counts, g) =>
        passCalls o tokens topics topicCounts counts g ((word, new) :: others)
  | _, _, _, _, _, _ => []

/-- The calls of several passes. -/
def documentCalls (o : Options α) (tokens : List Nat) : (sweeps : Nat) → TopicState → Counts → γ →
    (others : List (Nat × Nat)) → List WeightCall
  | 0, _, _, _, _ => []
  | sweeps + 1, s, counts, g, others =>
    passCalls o tokens s.assignment s.counts counts g others ++
      match sweepTokens o .train tokens s.assignment s.counts counts g with
      | (.error _, _, _) => []
      | (.ok (assignment, topicCounts), counts, g) =>
        documentCalls o tokens sweeps ⟨topicCounts, assignment⟩ counts g others

/-- The calls for a document, if it passes the checks. -/
def sampleCalls (o : Options α) (sweeps : Nat) (d : Document) (s : TopicState) (counts : Counts)
    (g : γ) (others : List (Nat × Nat)) : List WeightCall :=
  match checkSample o sweeps d s counts with
  | .error _ => []
  | .ok () => if d.isEmpty then [] else documentCalls o d.tokens sweeps s counts g others

/-- The calls of a scan over documents, `done` the tokens of those before. -/
def scanCalls (o : Options α) (sweeps : Nat) : List (Document × TopicState) → Counts → γ →
    (done : List (Nat × Nat)) → List WeightCall
  | [], _, _, _ => []
  | (d, s) :: rest, counts, g, done =>
    sampleCalls o sweeps d s counts g (stateTokens rest ++ done) ++
      match sample o .train sweeps d s counts g with
      | (.error _, _, _) => []
      | (.ok s, counts, g) => scanCalls o sweeps rest counts g (d.assigned s.assignment ++ done)

/-- The calls of a partition's training sweep. -/
def Partition.weightCalls (p : Partition) (b : Broadcast α) (sweeps : Nat) (g : γ) :
    List WeightCall :=
  match Counts.ofFlat (α := α) b.options.vocSize b.options.topicNum b.counts.flat with
  | .error _ => []
  | .ok counts => scanCalls b.options sweeps p.pairs counts g []

/-- The calls of a corpus's training sweep. All shards are counted in: they are swept side by side,
and the failure of one need not come before the calls of another. -/
def Worker.weightCalls (w : Worker) (b : Broadcast α) (sweeps : Nat) (g : γ) : List WeightCall :=
  match w with
  | single p => p.weightCalls b sweeps g
  | sharded ps => (ps.zip (drawWords ps.length g).1).flatMap fun (p, seed) =>
    p.weightCalls b sweeps (Xoshiro.ofSeed seed)

/-! ## From tokens to documents -/

variable {o : Options α} {base c : Counts} {frozen : List (Nat × Nat)} {sweeps : Nat} {g : γ}

theorem explains_passCalls (hb : base.Tallies o.vocSize o.topicNum frozen) :
    ∀ {tokens topics : List Nat}, tokens.length = topics.length → (∀ w ∈ tokens, w < o.vocSize) →
    (∀ k ∈ topics, k < o.topicNum) → ∀ (drawn : List Nat) {others : List (Nat × Nat)}
    {tc : List Int} {c : Counts} {g : γ}, tc = histogram o.topicNum (topics ++ drawn) →
    HasRoom (topics ++ drawn).length → c.Stored → c.Extends base (tokens.zip topics ++ others) →
    HasRoom (tokens.length + (others ++ frozen).length) →
    Explains (passCalls o tokens topics tc c g others) o
      (sweepTokens o .train tokens topics tc c g).1
  | [], [], _, _, _ => fun _ _ _ _ _ _ _ _ _ _ => explains_ok
  | word :: tokens, old :: topics, hlen, hw, hk => by
    intro drawn others tc c g htc hdoc hc hext hroom
    obtain ⟨hword, hw⟩ := List.forall_mem_cons.1 hw
    obtain ⟨hold, hk⟩ := List.forall_mem_cons.1 hk
    have hV := hb.vocSize_eq
    have hK := hb.topicNum_eq
    have hout : (c.decrement word old).Extends base (tokens.zip topics ++ others) :=
      hext.decrement (by omega) (by omega)
    -- what is left are the tokens still to come and those drawn before
    have hleft : tc.modify old (fun n => signed (n - 1)) =
        histogram o.topicNum (topics ++ drawn) := by
      rw [htc]
      exact modify_histogram_cons (hdoc.mono (Nat.le_succ _))
    have hcall : (ofToken word old tc c (tokens.zip topics ++ others)).Covered o := by
      refine covered_of_tallies (hout.tallies_append hb (Counts.stored_addTokens hc))
        (hroom.mono ?_) hword ?_ ?_
      · simp only [ofToken, List.length_append, List.length_zip, List.length_cons]
        omega
      · show (tc.modify old fun n => signed (n - 1)).length = _
        rw [hleft, length_histogram]
      · show ∀ n ∈ tc.modify old (fun n => signed (n - 1)), 0 ≤ n
        rw [hleft]
        exact fun n => nonneg_of_mem_histogram
    have htoken : Explains [ofToken word old tc c (tokens.zip topics ++ others)] o
        (resampleToken o .train word old tc c g).1 := by
      refine ⟨List.forall_mem_singleton.2 hcall, fun e he => ⟨_, List.mem_cons_self, ?_⟩⟩
      exact hcall.raises (resampleToken_error hword (hext.vocSize_eq.trans hV)
        (hext.topicNum_eq.trans hK) (by rw [htc, length_histogram]) hold he)
    rw [passCalls, sweepTokens]
    rcases hone : resampleToken o .train word old tc c g with ⟨_ | ⟨new, tc₁⟩, c₁, g₁⟩
    · exact htoken.fail (congrArg Prod.fst hone)
    · obtain ⟨hnew, rfl, rfl, -⟩ := resampleToken_ok hone
      rw [htc, length_histogram] at hnew
      have hin : ((c.decrement word old).increment word new).Extends base
          ((word, new) :: (tokens.zip topics ++ others)) := hout.increment (by omega) (by omega)
      have hjoin : ((tc.modify old fun n => signed (n - 1)).modify new fun n => signed (n + 1)) =
          histogram o.topicNum (topics ++ new :: drawn) := by
        have hdoc : HasRoom ((topics ++ drawn).length + 1) := hdoc
        rw [hleft, modify_histogram hdoc]
        exact histogram_perm List.perm_middle.symm
      have hrest := explains_passCalls hb (Nat.succ.inj hlen) hw hk (new :: drawn) (g := g₁) hjoin
        (hdoc.mono (by simp; omega)) (Counts.stored_addTokens (Counts.stored_addTokens hc))
        (hin.perm List.perm_middle.symm) (hroom.mono (by simp; omega))
      refine htoken.append hrest fun e he => .inr ?_
      dsimp only [SampleMode.move, Counts.increment, Counts.decrement] at he ⊢
      generalize sweepTokens o .train tokens topics _ _ g₁ = swept at he ⊢
      obtain ⟨_ | ⟨news, tc'⟩, c', g'⟩ := swept
      · cases he
        rfl
      · cases he

theorem explains_documentCalls {d : Document} {others : List (Nat × Nat)}
    (hb : base.Tallies o.vocSize o.topicNum frozen)
    (hd : d.checkWords (α := α) o.vocSize = .ok ()) :
    ∀ {n : Nat} {s : TopicState} {c : Counts} {g : γ}, s.Fits d o.topicNum → c.Stored →
    c.Extends base (d.assigned s.assignment ++ others) →
    HasRoom (d.tokens.length + (others ++ frozen).length) →
    Explains (documentCalls o d.tokens n s c g others) o
      (sweepDocument o .train d.tokens n s c g).1
  | 0, _, _, _, _, _, _, _ => explains_ok
  | n + 1, s, c, g, hs, hc, hext, hroom => by
    have hlen := Document.length_tokens hd
    have hw := Document.lt_of_mem_tokens hd
    have hK := hs.length_counts
    have hstart : s.counts = histogram o.topicNum (s.assignment ++ []) := by
      rw [List.append_nil]
      exact hs.counts_eq
    have hpass := explains_passCalls hb (hlen.trans hs.length_eq.symm) hw hs.topic_lt [] (g := g)
      hstart (by rw [List.append_nil, hs.length_eq]; exact hs.hasRoom) hc hext hroom
    rw [documentCalls, sweepDocument]
    rcases hone : sweepTokens o .train d.tokens s.assignment s.counts c g with
      ⟨_ | ⟨assignment, tc⟩, c₁, g₁⟩
    · exact hpass.fail (congrArg Prod.fst hone)
    · have hext' := sweepTokens_extends hone (by rwa [hb.vocSize_eq])
        (by rw [hK, hb.topicNum_eq]) hext
      have hc' : c₁.Stored := by
        have hkept : (sweepTokens o .train d.tokens s.assignment s.counts c g).2.1.Stored :=
          sweepTokens_keeps (fun _ _ _ _ => SampleMode.stored_move) hc
        rwa [hone] at hkept
      have hrest := explains_documentCalls (n := n) (g := g₁) hb hd (sweepTokens_fits hs hlen hone)
        hc' hext' hroom
      exact hpass.append hrest fun e he => .inr he

/-- The calls for a checked document whose state fits it. -/
theorem explains_sampleCalls {d : Document} {s : TopicState} {others : List (Nat × Nat)}
    (hb : base.Tallies o.vocSize o.topicNum frozen) (hsweeps : sweeps ≠ 0)
    (hd : d.checkWords (α := α) o.vocSize = .ok ()) (hs : s.Fits d o.topicNum)
    (hc : c.Stored) (hext : c.Extends base (d.assigned s.assignment ++ others))
    (hroom : HasRoom (d.tokens.length + (others ++ frozen).length)) :
    Explains (sampleCalls o sweeps d s c g others) o (sample o .train sweeps d s c g).1 := by
  have hshape : c.vocSize = o.vocSize ∧ c.topicNum = o.topicNum :=
    ⟨hext.vocSize_eq.trans hb.vocSize_eq, hext.topicNum_eq.trans hb.topicNum_eq⟩
  have hcheck := checkSample_ok_iff.2 ⟨hsweeps, hshape, hd, hs.check (α := α)⟩
  rw [sampleCalls, sample, hcheck]
  dsimp only
  split
  · exact explains_ok
  · exact explains_documentCalls hb hd hs hc hext hroom

/-! ## From scans to workers -/

theorem explains_scanCalls (hb : base.Tallies o.vocSize o.topicNum frozen) (hsweeps : sweeps ≠ 0)
    {ds : List Document} {ss : List TopicState}
    (hd : ∀ d ∈ ds, d.checkWords (α := α) o.vocSize = .ok ())
    (hss : List.Forall₂ (fun d s => s.Fits d o.topicNum) ds ss) :
    ∀ {done : List (Nat × Nat)} {c : Counts} {g : γ}, c.Stored →
    c.Extends base (stateTokens (ds.zip ss) ++ done) →
    HasRoom (stateTokens (ds.zip ss) ++ (done ++ frozen)).length →
    Explains (scanCalls o sweeps (ds.zip ss) c g done) o
      (sampleAll o .train sweeps (ds.zip ss) c g).1 := by
  induction hss with
  | nil => exact fun _ _ _ => explains_ok
  | @cons d s ds ss hs hss ih =>
    intro done c g hc hext hroom
    obtain ⟨hdoc, hds⟩ := List.forall_mem_cons.1 hd
    rw [List.zip_cons_cons, stateTokens_cons, List.append_assoc] at hext hroom
    rw [List.length_append, Document.length_assigned hdoc hs.length_eq] at hroom
    have hone := explains_sampleCalls (g := g) hb hsweeps hdoc hs hc hext
      (by rwa [List.append_assoc])
    rw [List.zip_cons_cons, scanCalls, sampleAll]
    rcases h : sample o .train sweeps d s c g with ⟨_ | s', c₁, g₁⟩
    · exact hone.fail (congrArg Prod.fst h)
    · have hext' := (sample_extends h hext).perm (List.perm_append_comm_assoc ..)
      have hc' : c₁.Stored := by
        have hkept : (sample o .train sweeps d s c g).2.1.Stored := sample_stored hc
        rwa [h] at hkept
      have hlen := Document.length_assigned hdoc (sample_fits hs h).length_eq
      have hrest := ih hds (g := g₁) hc' hext' (by
        simp only [List.length_append] at hroom ⊢
        rw [hlen]
        exact hroom.mono (by omega))
      refine hone.append hrest fun e he => .inr ?_
      dsimp only at he
      generalize sampleAll o .train sweeps (ds.zip ss) c₁ g₁ = rest at he ⊢
      obtain ⟨_ | states, c₂, g₂⟩ := rest
      · cases he
        rfl
      · cases he

/-- A sweep of an assigned partition, against counts of its own tokens and those of others. -/
theorem Partition.explains_weightCalls {p : Partition} {b : Broadcast α}
    (hb : base.Tallies b.options.vocSize b.options.topicNum frozen) (hsweeps : sweeps ≠ 0)
    (hd : ∀ d ∈ p.documents, d.checkWords (α := α) b.options.vocSize = .ok ())
    (hp : p.Assigned b.options.topicNum)
    (ht : b.counts.Tallies b.options.vocSize b.options.topicNum (p.tokens ++ frozen))
    (hroom : HasRoom (p.tokens ++ frozen).length) :
    Explains (p.weightCalls b sweeps g) b.options (p.sweep b .train sweeps g).1 := by
  have hflat : Counts.ofFlat (α := α) b.options.vocSize b.options.topicNum b.counts.flat =
      .ok b.counts := by
    rw [← ht.vocSize_eq, ← ht.topicNum_eq]
    exact dif_pos b.counts.size_flat
  have hext : b.counts.Extends base (p.tokens ++ []) := by
    rw [List.append_nil]
    exact ht.extends hb
  have hscan := explains_scanCalls (g := g) hb hsweeps hd hp.fits ht.stored hext hroom
  rw [Partition.weightCalls, hflat, Partition.sweep_eq_plainSweep hp.cache_empty,
    Partition.plainSweep, Partition.resampled, hflat]
  dsimp only
  by_cases hnil : p.pairs = []
  · rw [if_pos hnil, hnil]
    exact explains_ok
  · rw [if_neg hnil]
    refine ⟨hscan.covered, fun e he => hscan.raised e ?_⟩
    change (sampleAll b.options .train sweeps p.pairs b.counts g).1 = _
    generalize sampleAll b.options .train sweeps p.pairs b.counts g = scanned at he ⊢
    obtain ⟨_ | states, c', g'⟩ := scanned
    · cases he
      rfl
    · cases he

/-- Counts of given tokens exist. -/
theorem Counts.exists_tallies {V K : Nat} {tokens : List (Nat × Nat)} (h : Within V K tokens) :
    ∃ c : Counts, c.Tallies V K tokens :=
  have ⟨c, _, hc⟩ := (tallies_zeros V K).incrementAll h
  ⟨c, hc⟩

theorem explains_shards {b : Broadcast α} (hsweeps : sweeps ≠ 0) :
    ∀ {ps : List Partition} (seeds : List UInt64) (others : List (Nat × Nat)),
    (∀ p ∈ ps, ∀ d ∈ p.documents, d.checkWords (α := α) b.options.vocSize = .ok ()) →
    (∀ p ∈ ps, p.Assigned b.options.topicNum) →
    Counts.Within b.options.vocSize b.options.topicNum (ps.flatMap Partition.tokens ++ others) →
    b.counts.Tallies b.options.vocSize b.options.topicNum
      (ps.flatMap Partition.tokens ++ others) →
    HasRoom (ps.flatMap Partition.tokens ++ others).length →
    Explains ((ps.zip seeds).flatMap fun (p, seed) =>
      p.weightCalls b sweeps (Xoshiro.ofSeed seed)) b.options
      (Worker.sweepShards b .train sweeps ps seeds).1
  | [], _ => fun _ _ _ _ _ _ => explains_ok
  | _ :: _, [] => fun _ _ _ _ _ _ => explains_ok
  | p :: ps, seed :: seeds => by
    intro others hd hps hin ht hroom
    obtain ⟨hdoc, hd⟩ := List.forall_mem_cons.1 hd
    obtain ⟨hp, hps⟩ := List.forall_mem_cons.1 hps
    rw [List.flatMap_cons, List.append_assoc] at hin ht hroom
    obtain ⟨base, hb⟩ := Counts.exists_tallies (List.forall_mem_append.1 hin).2
    have hone := p.explains_weightCalls (g := Xoshiro.ofSeed seed) hb hsweeps hdoc hp ht hroom
    -- for the later shards this one is among the others
    have hmove := List.perm_append_comm_assoc p.tokens (ps.flatMap Partition.tokens) others
    have hrest := explains_shards hsweeps seeds (p.tokens ++ others) hd hps
      (fun x hx => hin x (hmove.mem_iff.2 hx)) (ht.perm hmove) (by rwa [← hmove.length_eq])
    rw [List.zip_cons_cons, List.flatMap_cons]
    refine hone.append hrest fun e he => ?_
    rw [Worker.sweepShards] at he
    generalize p.sweep b .train sweeps (Xoshiro.ofSeed seed) = swept at he ⊢
    obtain ⟨_ | u, p', g'⟩ := swept
    · cases he
      exact .inl rfl
    · exact .inr he

/-- A training sweep of a corpus against the counts of its tokens. -/
theorem Worker.explains_weightCalls {w : Worker} {b : Broadcast α} (hsweeps : sweeps ≠ 0)
    (hd : ∀ d ∈ w.documents, d.checkWords (α := α) b.options.vocSize = .ok ())
    (hw : w.Assigned b.options.topicNum)
    (ht : b.counts.Tallies b.options.vocSize b.options.topicNum w.tokens)
    (hroom : HasRoom w.tokens.length) :
    Explains (w.weightCalls b sweeps g) b.options (w.sweep b .train sweeps g).1 := by
  have hin := (hw.within (α := α) hd).1
  have hparts : ∀ p ∈ w.partitions, ∀ d ∈ p.documents,
      d.checkWords (α := α) b.options.vocSize = .ok () :=
    fun p hp d hd' => hd d (List.mem_flatMap.2 ⟨p, hp, hd'⟩)
  cases w with
  | single p =>
    exact p.explains_weightCalls (Counts.tallies_zeros _ _) hsweeps (hparts p List.mem_cons_self)
      (hw p List.mem_cons_self) ht hroom
  | sharded ps =>
    rw [← List.append_nil (tokens _)] at hin ht hroom
    exact explains_shards hsweeps _ [] hparts hw hin ht hroom

end TopicModel
