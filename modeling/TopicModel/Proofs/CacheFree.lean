import TopicModel.Double
import TopicModel.Partition
import TopicModel.Random.Xoshiro

/-!
# Sweeps without the cache

`Partition.plainSweep` is a sweep that knows no cache: it takes the broadcast counts over once, if
there is a document to resample, and hands one copy of them from document to document
(`sampleAll`). `Partition.Reachable` is every partition that can be built and worked on.

* `Reachable.cache_empty`: between two operations the cache holds no counts, also after a failure.
* `samplePairs_held`, `samplePairs_empty`: resampling through the cache is `sampleAll`, from the
  counts held or from the broadcast ones.
* `cached_sweep_eq_plainSweep`: on every reachable partition the two sweeps agree, in the result, in
  what is left of the partition and in the generator, and so do the two sweeps after them.
-/

namespace TopicModel

variable {α γ : Type}

/-- Resamples documents in order, handing the counts from each to the next. -/
def sampleAll [Arithmetic] [Scalar α] [Generator γ] (o : Options α) (mode : SampleMode)
    (sweeps : Nat) : List (Document × TopicState) → Counts → γ → Sampled α γ (List TopicState)
  | [], counts, g => (.ok [], counts, g)
  | (d, s) :: rest, counts, g =>
    match sample o mode sweeps d s counts g with
    | (.error e, counts, g) => (.error e, counts, g)
    | (.ok s, counts, g) =>
      match sampleAll o mode sweeps rest counts g with
      | (.error e, counts, g) => (.error e, counts, g)
      | (.ok states, counts, g) => (.ok (s :: states), counts, g)

/-! ## The cache -/

namespace ScanCache

variable {β : Type} {key : ScanKey} {counts : Counts} {n V K : Nat} {flat : Array Int}
  {use : Counts → β × Counts}

theorem acquire_held :
    (⟨some (key, counts), n⟩ : ScanCache).acquire (α := α) key V K flat use =
      (.ok (use counts).1, ⟨some (key, (use counts).2), n⟩) := by
  simp [acquire]

theorem acquire_empty_error {e : Error α} (h : Counts.ofFlat V K flat = .error e) :
    (⟨none, n⟩ : ScanCache).acquire key V K flat use = (.error e, ⟨none, n⟩) := by
  simp [acquire, acquire.decode, h]

theorem acquire_empty_ok (h : Counts.ofFlat (α := α) V K flat = .ok counts) :
    (⟨none, n⟩ : ScanCache).acquire (α := α) key V K flat use =
      (.ok (use counts).1, ⟨some (key, (use counts).2), n + 1⟩) := by
  simp [acquire, acquire.decode, h]

theorem release_snd (c : ScanCache) : (c.release key).2 = ⟨none, c.decodes⟩ := by
  obtain ⟨_ | ⟨held, counts⟩, n⟩ := c <;> rfl

end ScanCache

namespace Partition

section
variable [Arithmetic]

variable [Scalar α] [Generator γ] {b : Broadcast α} {mode : SampleMode} {sweeps n : Nat}
  {key : ScanKey}

theorem samplePairs_held : ∀ (pairs : List (Document × TopicState)) (counts : Counts) (g : γ),
    samplePairs b mode sweeps key pairs ⟨some (key, counts), n⟩ g =
      let sampled := sampleAll b.options mode sweeps pairs counts g
      (sampled.1, ⟨some (key, sampled.2.1), n⟩, sampled.2.2)
  | [], _, _ => rfl
  | (d, s) :: rest, counts, g => by
    rw [samplePairs, ScanCache.acquire_held, sampleAll]
    rcases sample b.options mode sweeps d s counts g with ⟨_ | s', counts', g'⟩
    · rfl
    · simp only [samplePairs_held rest counts' g']
      rcases sampleAll b.options mode sweeps rest counts' g' with
        ⟨_ | states, counts'', g''⟩ <;> rfl

theorem samplePairs_empty_error {d : Document} {s : TopicState}
    {rest : List (Document × TopicState)} {g : γ} {e : Error α}
    (h : Counts.ofFlat b.options.vocSize b.options.topicNum b.counts.flat = .error e) :
    samplePairs b mode sweeps key ((d, s) :: rest) ⟨none, n⟩ g =
      (.error (.error e), ⟨none, n⟩, g) := by
  rw [samplePairs, ScanCache.acquire_empty_error h]

/-- The first document takes the broadcast counts over, the others find what it left. -/
theorem samplePairs_empty_ok {d : Document} {s : TopicState} {rest : List (Document × TopicState)}
    {g : γ} {counts : Counts}
    (h : Counts.ofFlat (α := α) b.options.vocSize b.options.topicNum b.counts.flat = .ok counts) :
    samplePairs b mode sweeps key ((d, s) :: rest) ⟨none, n⟩ g =
      let sampled := sampleAll b.options mode sweeps ((d, s) :: rest) counts g
      (sampled.1, ⟨some (key, sampled.2.1), n + 1⟩, sampled.2.2) := by
  rw [← samplePairs_held, samplePairs, samplePairs, ScanCache.acquire_empty_ok h,
    ScanCache.acquire_held]

/-! ## The two sweeps -/

/-- The new states of the documents, computed with one copy of the broadcast counts. -/
def resampled (p : Partition) (b : Broadcast α) (mode : SampleMode) (sweeps : Nat) (g : γ) :
    Outcome α (List TopicState) × γ :=
  if p.pairs = [] then (.ok [], g)
  else match Counts.ofFlat b.options.vocSize b.options.topicNum b.counts.flat with
    | .error e => (.error (.error e), g)
    | .ok counts =>
      let (result, _, g) := sampleAll b.options mode sweeps p.pairs counts g
      (result, g)

/-- Whether a sweep takes counts over: there is a document for them, and they have the size that
the options ask for. -/
def takesOver (p : Partition) (b : Broadcast α) : Bool :=
  p.pairs ≠ [] &&
    (Counts.ofFlat (α := α) b.options.vocSize b.options.topicNum b.counts.flat).isOk

/-- A sweep without a cache. The states are replaced only if every document was resampled; the cache
is left empty, with one more copy on its account if counts were taken over. -/
def plainSweep (p : Partition) (b : Broadcast α) (mode : SampleMode) (sweeps : Nat) (g : γ) :
    Outcome α Unit × Partition × γ :=
  let cache : ScanCache := ⟨none, p.cache.decodes + if p.takesOver b then 1 else 0⟩
  match p.resampled b mode sweeps g with
  | (.ok states, g) => (.ok (), { p with states, cache }, g)
  | (.error e, g) => (.error e, { p with cache }, g)

/-- With an empty cache a sweep is the sweep without a cache. -/
theorem sweep_eq_plainSweep {p : Partition} (h : p.cache.entry = none) (b : Broadcast α)
    (mode : SampleMode) (sweeps : Nat) (g : γ) :
    p.sweep b mode sweeps g = p.plainSweep b mode sweeps g := by
  obtain ⟨index, documents, states, ⟨_ | entry, n⟩⟩ := p
  · unfold sweep plainSweep resampled takesOver
    simp only [ScanCache.release_snd]
    cases hpairs : pairs ⟨index, documents, states, ⟨none, n⟩⟩ with
    | nil => rfl
    | cons x rest =>
      obtain ⟨d, s⟩ := x
      cases hflat : Counts.ofFlat (α := α) b.options.vocSize b.options.topicNum b.counts.flat with
      | error e => simp [samplePairs_empty_error hflat, Except.isOk, Except.toBool]
      | ok counts =>
        simp only [samplePairs_empty_ok hflat]
        rcases sampleAll b.options mode sweeps ((d, s) :: rest) counts g with
          ⟨_ | states, counts', g'⟩ <;> simp [Except.isOk, Except.toBool]
  · cases h

/-! ## Reachable partitions -/

/-- The partitions that can be built and worked on: from documents with or without states, by
drawing states and by sweeps, whether these succeed or fail. The index, the documents and the states
are open to their owner, the cache is not. -/
inductive Reachable : Partition → Prop where
  | start (index : Nat) (documents : List Document) (states : List TopicState) :
      Reachable { index, documents, states }
  | edit {p : Partition} (index : Nat) (documents : List Document) (states : List TopicState) :
      Reachable p → Reachable { p with index, documents, states }
  | init {γ : Type} [Generator γ] {p p' : Partition} {topicNum : Nat} {g g' : γ} :
      Reachable p → p.init topicNum g = .ok (p', g') → Reachable p'
  | sweep {α γ : Type} [Scalar α] [Generator γ] {p : Partition} (b : Broadcast α)
      (mode : SampleMode) (sweeps : Nat) (g : γ) :
      Reachable p → Reachable (p.sweep b mode sweeps g).2.1

omit [Arithmetic] in
theorem cache_init {p p' : Partition} {topicNum : Nat} {g g' : γ}
    (h : p.init topicNum g = .ok (p', g')) : p'.cache = p.cache := by
  unfold Partition.init at h
  cases hd : drawStates topicNum p.documents g with
  | error f => rw [hd] at h; cases h
  | ok drawn => rw [hd] at h; cases h; rfl

theorem plainSweep_cache (p : Partition) (b : Broadcast α) (mode : SampleMode) (sweeps : Nat)
    (g : γ) : (p.plainSweep b mode sweeps g).2.1.cache.entry = none := by
  unfold plainSweep
  rcases p.resampled b mode sweeps g with ⟨_ | states, g'⟩ <;> rfl

theorem Reachable.cache_empty {p : Partition} (h : p.Reachable) : p.cache.entry = none := by
  induction h with
  | start => rfl
  | edit _ _ _ _ ih => exact ih
  | init _ hi ih => rw [cache_init hi, ih]
  | sweep b mode sweeps g _ ih => rw [sweep_eq_plainSweep ih, plainSweep_cache]

/-- A sweep of a reachable partition does what the sweep without a cache does and leaves the cache
empty, and the next sweep, whatever the iteration of the model it is made against, is again one
without a cache. -/
theorem cached_sweep_eq_plainSweep {p : Partition} (hp : p.Reachable) (b : Broadcast α)
    (mode : SampleMode) (sweeps : Nat) (g : γ) :
    p.sweep b mode sweeps g = p.plainSweep b mode sweeps g ∧
      (p.sweep b mode sweeps g).2.1.cache.isEmpty = true ∧
      ∀ (b' : Broadcast α) (mode' : SampleMode) (sweeps' : Nat) (g' : γ),
        (p.sweep b mode sweeps g).2.1.sweep b' mode' sweeps' g' =
          (p.sweep b mode sweeps g).2.1.plainSweep b' mode' sweeps' g' := by
  have hnext := (hp.sweep b mode sweeps g).cache_empty
  refine ⟨sweep_eq_plainSweep hp.cache_empty b mode sweeps g, ?_, fun b' mode' sweeps' g' => ?_⟩
  · rw [ScanCache.isEmpty, hnext]; rfl
  · exact sweep_eq_plainSweep hnext b' mode' sweeps' g'

end

/-- A partition whose last sweep failed, against a model that lacks its token. -/
theorem cached_sweep_after_failure :
    let p : Partition := { index := 1, documents := [⟨0, [0], [1]⟩], states := [⟨[1, 0], [0]⟩] }
    let b : Broadcast Float := .zeros ⟨3, 2, 0.1, 0.1⟩
    let failed := (p.sweep b .train 1 (Xoshiro.ofSeed 42)).2.1
    (p.sweep b .train 1 (Xoshiro.ofSeed 42)).1.isOk = false ∧ failed.Reachable ∧
      failed.sweep b .train 1 (Xoshiro.ofSeed 7) = failed.plainSweep b .train 1 (Xoshiro.ofSeed 7) ∧
      (failed.sweep b .train 1 (Xoshiro.ofSeed 7)).2.1.cache.isEmpty = true ∧
      ∀ (b' : Broadcast Float) (mode : SampleMode) (sweeps : Nat) (g : Xoshiro),
        (failed.sweep b .train 1 (Xoshiro.ofSeed 7)).2.1.sweep b' mode sweeps g =
          (failed.sweep b .train 1 (Xoshiro.ofSeed 7)).2.1.plainSweep b' mode sweeps g := by
  intro p b failed
  have hp : failed.Reachable := .sweep _ _ _ _ (.start _ _ _)
  exact ⟨by decide +kernel, hp, cached_sweep_eq_plainSweep hp b .train 1 (Xoshiro.ofSeed 7)⟩

end Partition

end TopicModel
