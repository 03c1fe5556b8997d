import Mathlib
import TopicModel.Proofs.Score
import TopicModel.Schedule

/-!
# Any schedule

The order of the partitions is one of the schedules (`Worker.tallied_tally`, `Worker.scored_score`,
`Worker.swept_sweep`), and as long as no partition fails it is as good as any: every schedule that
succeeds gives what this one gives, and either all of them succeed or none does. Under one that
fails, the failure is that of a partition.
-/

namespace TopicModel

section
variable {α β τ : Type} {f : β → Outcome α τ} {xs : List β} {ys : List τ} {r : Outcome α (List τ)}

theorem collected_mapM (f : β → Outcome α τ) (xs : List β) : Collected (xs.map f) (xs.mapM f) := by
  cases h : xs.mapM f with
  | ok ys =>
    refine .all ys ?_
    rw [← List.forall₂_eq_eq_eq, List.forall₂_map_left_iff, List.forall₂_map_right_iff]
    exact Outcome.mapM_ok h
  | error e =>
    obtain ⟨x, hx, he⟩ := Outcome.mapM_error h
    exact .failed e (List.mem_map.2 ⟨x, hx, he⟩)

/-- Whether all results can be collected, and which, is the same in every order. -/
theorem Collected.eq_ok_iff (h : Collected (xs.map f) r) : r = .ok ys ↔ xs.mapM f = .ok ys := by
  have hinj : Function.Injective (Except.ok (ε := Failure α) (α := τ)) := fun _ _ => Except.ok.inj
  have hmapM := collected_mapM f xs
  generalize xs.mapM f = r' at hmapM ⊢
  generalize xs.map f = results at h hmapM
  cases h with
  | all zs hz =>
    cases hmapM with
    | all zs' hz' =>
      rw [hinj.list_map (hz.symm.trans hz')]
    | failed e he =>
      rw [hz] at he
      obtain ⟨_, -, hmem⟩ := List.mem_map.1 he
      cases hmem
  | failed e he =>
    cases hmapM with
    | all zs' hz' =>
      rw [hz'] at he
      obtain ⟨_, -, hmem⟩ := List.mem_map.1 he
      cases hmem
    | failed e' he' => simp

end

namespace Worker

variable {α : Type} [Scalar α] {γ : Type} [Generator γ] [Arithmetic] {o : Options α}
  {b : Broadcast α} {w : Worker} {mode : SampleMode} {sweeps : Nat}

/-! ## Tallies and scores -/

omit [Scalar α] in
theorem tallied_tally (o : Options α) (w : Worker) : Tallied o w (w.tally o) := by
  cases w with
  | single p => exact .single p
  | sharded ps => exact .sharded (collected_mapM _ ps)

theorem scored_score (b : Broadcast α) (w : Worker) : Scored b w (w.score b) := by
  cases w with
  | single p => exact .single p
  | sharded ps => exact .sharded (collected_mapM _ ps)

omit [Scalar α] in
/-- A schedule gives a tally just if visiting the partitions in order does, and the same one. -/
theorem Tallied.eq_ok_iff {r : Outcome α Tally} (h : Tallied o w r) {t : Tally} :
    r = .ok t ↔ w.tally o = .ok t := by
  cases h with
  | single p => rfl
  | sharded h =>
    rw [tally, Outcome.bind_eq_ok_iff, Outcome.bind_eq_ok_iff]
    exact exists_congr fun ts => and_congr_left fun _ => h.eq_ok_iff

theorem Scored.eq_ok_iff {r : Outcome α (Perplexity α)} (h : Scored b w r) {p : Perplexity α} :
    r = .ok p ↔ w.score b = .ok p := by
  cases h with
  | single p => rfl
  | sharded h =>
    rw [score, Outcome.bind_eq_ok_iff, Outcome.bind_eq_ok_iff]
    exact exists_congr fun ps => and_congr_left fun _ => h.eq_ok_iff

/-! ## Sweeps -/

theorem sweptShards_missed (b : Broadcast α) (mode : SampleMode) (sweeps : Nat) :
    ∀ {ps : List Partition} {seeds : List UInt64}, seeds.length = ps.length →
    ∃ results, SweptShards b mode sweeps ps seeds results ps
  | [], [], _ => ⟨[], .nil⟩
  | _ :: _, _ :: _, h =>
    let ⟨results, hrest⟩ := sweptShards_missed b mode sweeps (Nat.succ.inj h)
    ⟨none :: results, .missed hrest⟩

/-- In order, the partitions behind one that has failed are missed. -/
theorem sweptShards_sweepShards (b : Broadcast α) (mode : SampleMode) (sweeps : Nat) :
    ∀ {ps : List Partition} {seeds : List UInt64}, seeds.length = ps.length →
    ∃ results, SweptShards b mode sweeps ps seeds results (sweepShards b mode sweeps ps seeds).2 ∧
      match (sweepShards b mode sweeps ps seeds).1 with
      | .ok () => ∀ r ∈ results, r = some (.ok ())
      | .error e => some (.error e) ∈ results
  | [], [], _ => ⟨[], .nil, List.forall_mem_nil _⟩
  | p :: ps, seed :: seeds, h => by
    have hlength := Nat.succ.inj h
    have hreached {results ps'} (h : SweptShards b mode sweeps ps seeds results ps') :
        SweptShards b mode sweeps (p :: ps) (seed :: seeds) _ _ := .reached h
    rw [sweepShards]
    rcases hp : p.sweep b mode sweeps (Xoshiro.ofSeed seed) with ⟨e | u, p', g'⟩
    · obtain ⟨results, hmissed⟩ := sweptShards_missed b mode sweeps hlength
      rw [hp] at hreached
      exact ⟨_, hreached hmissed, List.mem_cons_self⟩
    · obtain ⟨results, hrest, hresults⟩ := sweptShards_sweepShards b mode sweeps hlength
      rw [hp] at hreached
      refine ⟨_, hreached hrest, ?_⟩
      dsimp only
      generalize (sweepShards b mode sweeps ps seeds).1 = r at hresults ⊢
      cases r with
      | error e => exact List.mem_cons_of_mem _ hresults
      | ok u => exact List.forall_mem_cons.2 ⟨rfl, hresults⟩

/-- Partitions that were all reached and succeeded are those of the sweep in order. -/
theorem SweptShards.eq_sweepShards {ps ps' : List Partition} {seeds : List UInt64}
    {results : List (Option (Outcome α Unit))} (h : SweptShards b mode sweeps ps seeds results ps')
    (hresults : ∀ r ∈ results, r = some (.ok ())) :
    sweepShards b mode sweeps ps seeds = (.ok (), ps') := by
  induction h with
  | nil => rfl
  | @reached p seed ps ps' seeds results _ ih =>
    obtain ⟨hp, hrest⟩ := List.forall_mem_cons.1 hresults
    rw [sweepShards]
    rcases hswept : p.sweep b mode sweeps (Xoshiro.ofSeed seed) with ⟨r, p', g'⟩
    rw [hswept] at hp
    cases Option.some.inj hp
    rw [ih hrest]
  | missed => cases (List.forall_mem_cons.1 hresults).1

/-- One that failed fails in order too, if none before it does. -/
theorem SweptShards.sweepShards_ne_ok {ps ps' : List Partition} {seeds : List UInt64}
    {results : List (Option (Outcome α Unit))} {e : Failure α}
    (h : SweptShards b mode sweeps ps seeds results ps') (he : some (.error e) ∈ results) :
    (sweepShards b mode sweeps ps seeds).1 ≠ .ok () := by
  induction h with
  | nil => cases he
  | @reached p seed ps ps' seeds results _ ih =>
    rw [sweepShards]
    rcases hswept : p.sweep b mode sweeps (Xoshiro.ofSeed seed) with ⟨e' | u, p', g'⟩
    · exact fun hok => by cases hok
    · rw [hswept] at he
      exact ih ((List.mem_cons.1 he).resolve_left (by simp))
  | @missed p seed ps ps' seeds results _ ih =>
    rw [sweepShards]
    rcases hswept : p.sweep b mode sweeps (Xoshiro.ofSeed seed) with ⟨e' | u, p', g'⟩
    · exact fun hok => by cases hok
    · exact ih ((List.mem_cons.1 he).resolve_left (by simp))

theorem swept_sweep (b : Broadcast α) (mode : SampleMode) (sweeps : Nat) (w : Worker) (g : γ) :
    Swept b mode sweeps w g (w.sweep b mode sweeps g) := by
  cases w with
  | single p => exact .single p g
  | sharded ps =>
    obtain ⟨results, hswept, hresults⟩ :=
      sweptShards_sweepShards b mode sweeps (length_drawWords ps.length g)
    rw [sweep]
    dsimp only
    generalize sweepShards b mode sweeps ps (drawWords ps.length g).1 = swept at hswept hresults ⊢
    obtain ⟨e | u, ps'⟩ := swept
    · exact .failed hswept hresults
    · exact .succeeded hswept hresults

/-- Under every schedule the same words are taken from the generator. If one succeeds, all give what
visiting the partitions in order gives. -/
theorem Swept.eq_sweep {g : γ} {r : Outcome α Unit × Worker × γ}
    (h : Swept b mode sweeps w g r) :
    (r.1 = .ok () ↔ (w.sweep b mode sweeps g).1 = .ok ()) ∧
      (r.1 = .ok () → r = w.sweep b mode sweeps g) ∧ r.2.2 = (w.sweep b mode sweeps g).2.2 := by
  cases h with
  | single p g => exact ⟨Iff.rfl, fun _ => rfl, rfl⟩
  | succeeded hswept hresults =>
    rw [sweep]
    dsimp only
    rw [hswept.eq_sweepShards hresults]
    exact ⟨Iff.rfl, fun _ => rfl, rfl⟩
  | failed hswept he =>
    rw [sweep]
    exact ⟨⟨nofun, fun hok => absurd hok (hswept.sweepShards_ne_ok he)⟩, nofun, rfl⟩

end Worker

end TopicModel
