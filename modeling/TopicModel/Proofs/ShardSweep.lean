import Mathlib
import TopicModel.Proofs.Exact

/-!
# Sweeps of shards

A sharded sweep takes one word per shard from its generator, in the order of the shards and before
any of them is swept (`drawWords_eq`). What a shard then makes of itself is a sweep of this shard
alone, with the generator of its word (`Worker.ownSweep`).

`Worker.sweepPlaces` sweeps shards in an order of one's choice. Since a shard is changed by its own
sweep only, the order does not matter (`getElem?_sweepPlaces`). The worker's own order is that of
the shards, and a failure ends it: `sweepShards_ok`, `sweepShards_error`.

`sharded_sweep_isolated` is the whole of it.
-/

namespace TopicModel

theorem drawWords_eq {γ : Type} [Generator γ] : ∀ (n : Nat) (g : γ),
    drawWords n g = ((List.range n).map (Generator.word · g), Generator.after n g)
  | 0, _ => rfl
  | n + 1, g => by
    rw [drawWords]
    dsimp only
    rw [drawWords_eq n, List.range_succ_eq_map, List.map_cons, List.map_map]
    rfl

namespace Worker

section

variable {α γ : Type} [Arithmetic] [Scalar α] [Generator γ] {b : Broadcast α} {mode : SampleMode}
  {sweeps : Nat} {g : γ}

/-- The sweep of a shard alone, with the generator of the word that `g` gives the shard's place. -/
def ownSweep (b : Broadcast α) (mode : SampleMode) (sweeps : Nat) (g : γ) (i : Nat)
    (p : Partition) : Outcome α Unit × Partition :=
  let (result, p, _) := p.sweep b mode sweeps (Xoshiro.ofSeed (Generator.word i g))
  (result, p)

/-- The shard at a place succeeds in its own sweep. -/
def Succeeds (b : Broadcast α) (mode : SampleMode) (sweeps : Nat) (g : γ) (i : Nat)
    (p : Partition) : Prop :=
  (ownSweep b mode sweeps g i p).1 = .ok ()

/-- Sweeps the shards at the given places one after the other, whether they succeed or fail, and
gives their results in this order. -/
def sweepPlaces (b : Broadcast α) (mode : SampleMode) (sweeps : Nat) (g : γ) :
    List Nat → List Partition → List (Outcome α Unit) × List Partition
  | [], ps => ([], ps)
  | i :: places, ps =>
    match ps[i]? with
    | none => sweepPlaces b mode sweeps g places ps
    | some p =>
      let (result, p) := ownSweep b mode sweeps g i p
      let (results, ps) := sweepPlaces b mode sweeps g places (ps.set i p)
      (result :: results, ps)

/-! ## Any order -/

/-- A place that is swept once holds its shard's own sweep, and any other what it held before. -/
theorem getElem?_sweepPlaces : ∀ {places : List Nat} {ps : List Partition} (i : Nat),
    places.Nodup → (sweepPlaces b mode sweeps g places ps).2[i]? =
      if i ∈ places then ps[i]?.map fun p => (ownSweep b mode sweeps g i p).2 else ps[i]?
  | [], _, _, _ => by simp [sweepPlaces]
  | j :: places, ps, i, h => by
    obtain ⟨hj, hplaces⟩ := List.nodup_cons.1 h
    rw [sweepPlaces]
    cases hp : ps[j]? with
    | none =>
      dsimp only
      rw [getElem?_sweepPlaces i hplaces]
      by_cases hij : i = j
      · subst hij
        simp [hp]
      · simp [hij]
    | some p =>
      dsimp only
      rw [getElem?_sweepPlaces i hplaces]
      by_cases hij : i = j
      · subst hij
        have hlt := (List.getElem?_eq_some_iff.1 hp).1
        rw [if_neg hj, List.getElem?_set_self hlt, if_pos List.mem_cons_self, hp, Option.map_some]
      · simp [hij, List.getElem?_set_ne (Ne.symm hij)]

/-- The results are those of the shards' own sweeps. -/
theorem results_sweepPlaces : ∀ {places : List Nat} {ps : List Partition}, places.Nodup →
    (sweepPlaces b mode sweeps g places ps).1 =
      places.filterMap fun i => ps[i]?.map fun p => (ownSweep b mode sweeps g i p).1
  | [], _, _ => rfl
  | j :: places, ps, h => by
    obtain ⟨hj, hplaces⟩ := List.nodup_cons.1 h
    rw [sweepPlaces, List.filterMap_cons]
    cases hp : ps[j]? with
    | none => exact results_sweepPlaces hplaces
    | some p =>
      -- the places that follow are others, which the sweep of this shard leaves alone
      have hothers : ∀ i ∈ places, (ps.set j (ownSweep b mode sweeps g j p).2)[i]? = ps[i]? :=
        fun i hi => List.getElem?_set_ne (ne_of_mem_of_not_mem hi hj).symm
      refine congrArg (_ :: ·) ((results_sweepPlaces hplaces).trans ?_)
      exact List.filterMap_congr fun i hi => by rw [hothers i hi]

/-- Shards that all succeed end as their own sweeps leave them, in whatever order they are swept. -/
theorem sweepPlaces_perm {places : List Nat} {ps : List Partition}
    (hplaces : places.Perm (List.range ps.length))
    (hps : ∀ i p, ps[i]? = some p → Succeeds b mode sweeps g i p) :
    sweepPlaces b mode sweeps g places ps = (List.replicate ps.length (.ok ()),
      ps.mapIdx fun i p => (ownSweep b mode sweeps g i p).2) := by
  have hnodup : places.Nodup := hplaces.nodup_iff.2 List.nodup_range
  have hmem : ∀ i, i ∈ places ↔ i < ps.length := fun i => by
    rw [hplaces.mem_iff, List.mem_range]
  refine Prod.ext ?_ (List.ext_getElem? fun i => ?_)
  · have hok : ∀ i ∈ places, (ps[i]?.map fun p => (ownSweep b mode sweeps g i p).1) =
        some (.ok ()) := by
      intro i hi
      have hp := List.getElem?_eq_getElem ((hmem i).1 hi)
      rw [hp, Option.map_some, hps i _ hp]
    have hconst : places.map (fun _ => (.ok () : Outcome α Unit)) =
        List.replicate ps.length (.ok ()) := by
      rw [List.map_const', hplaces.length_eq, List.length_range]
    rw [results_sweepPlaces hnodup, List.filterMap_congr hok, ← hconst, ← List.filterMap_eq_map]
    rfl
  · rw [getElem?_sweepPlaces i hnodup, List.getElem?_mapIdx]
    by_cases hi : i < ps.length
    · rw [if_pos ((hmem i).2 hi)]
    · rw [if_neg (mt (hmem i).1 hi), List.getElem?_eq_none (Nat.le_of_not_lt hi)]
      rfl

/-! ## The worker's order -/

theorem sweepShards_cons (k : Nat) (p : Partition) (ps : List Partition) (seeds : List UInt64) :
    sweepShards b mode sweeps (p :: ps) (Generator.word k g :: seeds) =
      match ownSweep b mode sweeps g k p with
      | (.error e, p) => (.error e, p :: ps)
      | (.ok (), p) =>
        let (result, ps) := sweepShards b mode sweeps ps seeds
        (result, p :: ps) := by
  rw [sweepShards, ownSweep]
  rcases p.sweep b mode sweeps (Xoshiro.ofSeed (Generator.word k g)) with ⟨_ | _, p', g'⟩ <;> rfl

/-- Shards that all succeed, from the place `k` on. -/
theorem sweepShards_ok : ∀ {ps : List Partition} (k : Nat),
    (∀ i p, ps[i]? = some p → Succeeds b mode sweeps g (k + i) p) →
    sweepShards b mode sweeps ps ((List.range' k ps.length).map (Generator.word · g)) =
      (.ok (), ps.mapIdx fun i p => (ownSweep b mode sweeps g (k + i) p).2)
  | [], _, _ => rfl
  | p :: ps, k, h => by
    have hp : (ownSweep b mode sweeps g k p).1 = .ok () := h 0 p rfl
    have hps : sweepShards b mode sweeps ps
        ((List.range' (k + 1) ps.length).map (Generator.word · g)) = (.ok (), _) :=
      sweepShards_ok (k + 1) fun i q hq => by
        rw [Nat.add_right_comm]
        exact h (i + 1) q hq
    have hown : ownSweep b mode sweeps g k p = (.ok (), (ownSweep b mode sweeps g k p).2) :=
      Prod.ext hp rfl
    rw [List.length_cons, List.range'_succ, List.map_cons, sweepShards_cons, hown]
    dsimp only
    rw [hps, List.mapIdx_cons]
    simp only [Nat.add_zero, Nat.add_assoc, Nat.add_comm 1]

/-- The first shard that fails keeps the shards after it from being swept. -/
theorem sweepShards_error {before rest : List Partition} {p : Partition} {e : Failure α} (k : Nat)
    (h : ∀ i q, before[i]? = some q → Succeeds b mode sweeps g (k + i) q)
    (he : (ownSweep b mode sweeps g (k + before.length) p).1 = .error e) :
    sweepShards b mode sweeps (before ++ p :: rest)
        ((List.range' k (before ++ p :: rest).length).map (Generator.word · g)) =
      (.error e, before.mapIdx (fun i q => (ownSweep b mode sweeps g (k + i) q).2) ++
        (ownSweep b mode sweeps g (k + before.length) p).2 :: rest) := by
  induction before generalizing k with
  | nil =>
    have hown : ownSweep b mode sweeps g k p = (.error e, (ownSweep b mode sweeps g k p).2) :=
      Prod.ext he rfl
    rw [List.nil_append, List.length_cons, List.range'_succ, List.map_cons, sweepShards_cons, hown]
    rfl
  | cons q before ih =>
    have hown : ownSweep b mode sweeps g k q = (.ok (), (ownSweep b mode sweeps g k q).2) :=
      Prod.ext (h 0 q rfl) rfl
    have hplace : k + (q :: before).length = k + 1 + before.length := by
      rw [List.length_cons]
      omega
    rw [hplace] at he ⊢
    have hrest := ih (k + 1) (fun i q hq => by
      rw [Nat.add_right_comm]
      exact h (i + 1) q hq) he
    rw [List.cons_append, List.length_cons, List.range'_succ, List.map_cons, sweepShards_cons,
      hown]
    dsimp only
    rw [hrest, List.mapIdx_cons, List.cons_append]
    simp only [Nat.add_zero, Nat.add_assoc, Nat.add_comm 1]

/-- A shard that fails keeps its index, its documents and its states. -/
theorem ownSweep_failed {i : Nat} {p : Partition} {e : Failure α}
    (h : (ownSweep b mode sweeps g i p).1 = .error e) :
    ∃ cache, (ownSweep b mode sweeps g i p).2 = { p with cache } := by
  revert h
  rw [ownSweep, Partition.sweep]
  dsimp only
  generalize Partition.samplePairs b mode sweeps ⟨b.iteration, p.index⟩ p.pairs p.cache
    (Xoshiro.ofSeed (Generator.word i g)) = sampled
  obtain ⟨_ | states, cache, g'⟩ := sampled
  · exact fun _ => ⟨_, rfl⟩
  · exact fun h => by cases h

/-! ## The sweep of a sharded worker -/

theorem sweep_sharded (ps : List Partition) (b : Broadcast α) (mode : SampleMode) (sweeps : Nat)
    (g : γ) : (sharded ps).sweep b mode sweeps g =
      let swept := sweepShards b mode sweeps ps
        ((List.range' 0 ps.length).map (Generator.word · g))
      (swept.1, sharded swept.2, Generator.after ps.length g) := by
  rw [Worker.sweep, drawWords_eq, List.range_eq_range']

theorem sweep_sharded_ok {ps : List Partition}
    (hps : ∀ i p, ps[i]? = some p → Succeeds b mode sweeps g i p) :
    (sharded ps).sweep b mode sweeps g = (.ok (),
      sharded (ps.mapIdx fun i p => (ownSweep b mode sweeps g i p).2),
      Generator.after ps.length g) := by
  rw [sweep_sharded, sweepShards_ok 0 fun i p hp => by rw [Nat.zero_add]; exact hps i p hp]
  simp only [Nat.zero_add]

theorem sweep_sharded_error {ps : List Partition} {j : Nat} {p : Partition} {e : Failure α}
    (hp : ps[j]? = some p) (he : (ownSweep b mode sweeps g j p).1 = .error e)
    (hbefore : ∀ i < j, ∀ q, ps[i]? = some q → Succeeds b mode sweeps g i q) :
    (sharded ps).sweep b mode sweeps g = (.error e,
      sharded ((ps.take j).mapIdx (fun i q => (ownSweep b mode sweeps g i q).2) ++
        (ownSweep b mode sweeps g j p).2 :: ps.drop (j + 1)),
      Generator.after ps.length g) := by
  obtain ⟨hj, rfl⟩ := List.getElem?_eq_some_iff.1 hp
  have hsplit : ps = ps.take j ++ ps[j] :: ps.drop (j + 1) := by
    rw [List.cons_getElem_drop_succ, List.take_append_drop]
  have hlen : (ps.take j).length = j := List.length_take_of_le (Nat.le_of_lt hj)
  have hfails : sweepShards b mode sweeps (ps.take j ++ ps[j] :: ps.drop (j + 1))
      ((List.range' 0 (ps.take j ++ ps[j] :: ps.drop (j + 1)).length).map (Generator.word · g)) =
      (.error e, _) :=
    sweepShards_error 0
      (fun i q hq => by
        rw [List.getElem?_take] at hq
        split at hq
        · rename_i hi
          rw [Nat.zero_add]
          exact hbefore i hi q hq
        · cases hq)
      (by rwa [hlen, Nat.zero_add])
  rw [← hsplit, hlen] at hfails
  rw [sweep_sharded, hfails]
  simp only [Nat.zero_add]

/-- A sharded sweep takes one word per shard, whatever comes of it. Shards that succeed end as the
sweep of each alone with the generator of its word leaves it, in whatever order they are swept, and
so whatever the other shards hold. The lowest shard that fails keeps its documents and its states,
and so do those after it, which are not swept, while those before it are left swept. -/
theorem sharded_sweep_isolated (ps : List Partition) (b : Broadcast α) (mode : SampleMode)
    (sweeps : Nat) (g : γ) :
    let swept := (sharded ps).sweep b mode sweeps g
    let own : Nat → Partition → Partition := fun i p => (ownSweep b mode sweeps g i p).2
    swept.2.2 = Generator.after ps.length g ∧
    ((∀ i p, ps[i]? = some p → Succeeds b mode sweeps g i p) →
      swept.1 = .ok () ∧ swept.2.1 = sharded (ps.mapIdx own) ∧
      (∀ places : List Nat, places.Perm (List.range ps.length) →
        sweepPlaces b mode sweeps g places ps =
          (List.replicate ps.length (.ok ()), ps.mapIdx own)) ∧
      ∀ qs : List Partition, qs.length = ps.length →
        (∀ i q, qs[i]? = some q → Succeeds b mode sweeps g i q) →
        ∀ i : Nat, qs[i]? = ps[i]? →
          ((sharded qs).sweep b mode sweeps g).2.1.partitions[i]? = swept.2.1.partitions[i]?) ∧
    ∀ j p e, ps[j]? = some p → (ownSweep b mode sweeps g j p).1 = .error e →
      (∀ i < j, ∀ q, ps[i]? = some q → Succeeds b mode sweeps g i q) →
      swept.1 = .error e ∧ ∃ cache, swept.2.1 =
        sharded ((ps.take j).mapIdx own ++ { p with cache } :: ps.drop (j + 1)) := by
  intro swept own
  refine ⟨?_, fun hps => ?_, fun j p e hp he hbefore => ?_⟩
  · exact congrArg (·.2.2) (sweep_sharded ps b mode sweeps g)
  · have hswept : swept = (.ok (), sharded (ps.mapIdx own), _) := sweep_sharded_ok hps
    rw [hswept]
    refine ⟨rfl, rfl, fun places hplaces => sweepPlaces_perm hplaces hps, ?_⟩
    intro qs _ hqs i hi
    rw [sweep_sharded_ok hqs]
    dsimp only [partitions]
    rw [List.getElem?_mapIdx, List.getElem?_mapIdx, hi]
  · have hswept : swept = (.error e, _, _) := sweep_sharded_error hp he hbefore
    obtain ⟨cache, hcache⟩ := ownSweep_failed he
    rw [hcache] at hswept
    rw [hswept]
    exact ⟨rfl, cache, rfl⟩

end

/-- Two shards with exact scalars, also swept in the other order and with another document in the
second, and a shard between them whose document the model has no word for. -/
theorem sharded_sweep_isolated_three_shards :
    let left : Partition :=
      { index := 0, documents := [⟨0, [0, 2], [1, 2]⟩], states := [⟨[2, 1], [0, 1, 0]⟩] }
    let right : Partition := { index := 1, documents := [⟨1, [1], [1]⟩], states := [⟨[0, 1], [1]⟩] }
    let other : Partition := { index := 1, documents := [⟨2, [2], [1]⟩], states := [⟨[0, 1], [1]⟩] }
    let bad : Partition := { index := 1, documents := [⟨3, [5], [1]⟩], states := [⟨[1, 0], [0]⟩] }
    let b : Broadcast ℝ := ⟨⟨3, 2, 1, 1⟩, ⟨3, 2, #[1, 0, 0, 1, 1, 1, 2, 2], rfl⟩, 4⟩
    let g : Xoshiro := .ofSeed 7
    let own : Nat → Partition → Partition := fun i p => (ownSweep b .train 2 g i p).2
    ((sharded [left, right]).sweep b .train 2 g).2.1 = sharded [own 0 left, own 1 right] ∧
    sweepPlaces b .train 2 g [1, 0] [left, right] =
      ([.ok (), .ok ()], [own 0 left, own 1 right]) ∧
    ((sharded [left, other]).sweep b .train 2 g).2.1.partitions[0]? = some (own 0 left) ∧
    ((sharded [left, bad, right]).sweep b .train 2 g).1 =
      .error (.error (.wordOutOfRange 3 5 3)) ∧
    ∃ cache, ((sharded [left, bad, right]).sweep b .train 2 g).2.1 =
      sharded [own 0 left, { bad with cache }, right] := by
  intro left right other bad b g own
  have ho : b.options.check = .ok () := Model.check_ok_iff.2
    ⟨isProper_iff.2 one_pos, isProper_iff.2 one_pos, by decide, by decide⟩
  have hsucceeds : ∀ (i : Nat) (p : Partition) (others : List (Nat × Nat)),
      (∀ d ∈ p.documents, d.checkWords (α := ℝ) 3 = .ok ()) → p.Assigned 2 →
      Counts.Within 3 2 others → b.counts.Tallies 3 2 (p.tokens ++ others) →
      Arithmetic.HasRoom (p.tokens ++ others).length →
      Succeeds b .train 2 g i p :=
    fun i p others hd hp hin ht hroom => p.sweep_ok ho (by decide) hd hp hin ht hroom _
  have hleft : Succeeds b .train 2 g 0 left := hsucceeds 0 left [(1, 1)] (by decide)
    ⟨rfl, .cons ⟨by decide, rfl, by decide, rfl⟩ .nil⟩ (by simp [Counts.Within])
    (.of_value rfl rfl (by decide) (by decide)) (by decide)
  have hright : Succeeds b .train 2 g 1 right := hsucceeds 1 right [(0, 0), (2, 1), (2, 0)]
    (by decide) ⟨rfl, .cons ⟨by decide, rfl, by decide, rfl⟩ .nil⟩ (by simp [Counts.Within])
    (.of_value rfl rfl (by decide) (by decide)) (by decide)
  have hother : Succeeds b .train 2 g 1 other := hsucceeds 1 other [(0, 0), (1, 1), (2, 0)]
    (by decide) ⟨rfl, .cons ⟨by decide, rfl, by decide, rfl⟩ .nil⟩ (by simp [Counts.Within])
    (.of_value rfl rfl (by decide) (by decide)) (by decide)
  have hpair : ∀ p : Partition, Succeeds b .train 2 g 1 p →
      ∀ i q, [left, p][i]? = some q → Succeeds b .train 2 g i q := by
    rintro p hp (_ | _ | i) q hq <;> cases hq
    · exact hleft
    · exact hp
  obtain ⟨-, hok, -⟩ := sharded_sweep_isolated [left, right] b .train 2 g
  obtain ⟨-, hswept, hplaces, hothers⟩ := hok (hpair right hright)
  have hswap : [1, 0].Perm (List.range 2) := .swap 0 1 []
  have hsame := hothers [left, other] rfl (hpair other hother) 0 rfl
  rw [hswept] at hsame
  obtain ⟨-, -, hfails⟩ := sharded_sweep_isolated [left, bad, right] b .train 2 g
  obtain ⟨he, cache, hcache⟩ := hfails 1 bad (.error (.wordOutOfRange 3 5 3)) rfl rfl
    fun i hi q hq => by
      obtain rfl : i = 0 := by omega
      cases hq
      exact hleft
  exact ⟨hswept, hplaces [1, 0] hswap, hsame, he, cache, hcache⟩

end Worker

end TopicModel
