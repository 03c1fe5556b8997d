import Mathlib
import TopicModel.Proofs.Trace

/-!
# Observers of a run

`Observer.watch` shows an event to an observer and its shared state, and a fit that is watched by it
replays the events that it would record.

* `Measures.ofIteration` are the measures of one iteration alone: the tokens, what the metrics
  computed from the merged model, and the perplexity if there is one. A monitor has them after the
  events of an iteration, whatever it had before (`measures_replay_step`).
* `o.at? q` is the observer at a place `q`, the numbers of the children on the way to it, and
  `o.places` lists all places, each monitor before its children and these in order. An event reaches
  the observer at every place (`at?_watch`).
* `o.logged` is the observer with a log: at every place an event is written down when it arrives.
  The log changes nothing else and has every event once for each place (`replay_logged`).
-/

namespace TopicModel

open Arithmetic (unsigned)

variable {α σ τ : Type}

/-! ## Measures -/

theorem lookup_cons_eq_ite {κ : Type} [DecidableEq κ] (name key : κ) (value : τ)
    (entries : List (κ × τ)) :
    ((name, value) :: entries).lookup key =
      if key = name then some value else entries.lookup key := by
  by_cases h : key = name
  · subst h
    simp
  · simp [List.lookup, beq_false_of_ne h, h]

theorem Measures.get?_insert (m : Measures α) (name key : String) (value : α) :
    (m.insert name value).get? key = if key = name then some value else m.get? key := by
  have hgo : ∀ entries : List (String × α), (insert.go name value entries).lookup key =
      if key = name then some value else entries.lookup key := by
    intro entries
    induction entries with
    | nil => exact lookup_cons_eq_ite ..
    | cons entry rest ih =>
      obtain ⟨old, v⟩ := entry
      rw [insert.go]
      split
      · rename_i hold
        subst hold
        rw [lookup_cons_eq_ite, lookup_cons_eq_ite]
        split <;> rfl
      · rename_i hold
        rw [lookup_cons_eq_ite, lookup_cons_eq_ite, ih]
        grind
  exact hgo m.entries

namespace Metric

/-- The metric does not write the measure of the given name. -/
def Keeps (metric : Metric α σ) (name : String) : Prop :=
  ∀ i b x, (metric.compute i b x).1.get? name = x.1.get? name

theorem get?_computeAll {name : String} {i : Nat} {b : Broadcast α} :
    ∀ {metrics : List (Metric α σ)} {x : Measures α × σ}, (∀ metric ∈ metrics, metric.Keeps name) →
      (computeAll metrics i b x).1.get? name = x.1.get? name
  | [], _, _ => rfl
  | metric :: metrics, x, h => by
    obtain ⟨hone, hrest⟩ := List.forall_mem_cons.1 h
    rw [← hone i b x]
    exact get?_computeAll hrest

theorem keeps_logLikelihood [Scalar α] {name : String} (h : name ≠ "log_likelihood") :
    (logLikelihood : Metric α σ).Keeps name := fun i b x => by
  obtain ⟨m, s⟩ := x
  exact (m.get?_insert "log_likelihood" name _).trans (if_neg h)

/-- The metric beside a state that it does not see. -/
def lift (metric : Metric α σ) : Metric α (σ × τ) where
  compute i b := fun (m, s, x) => ((metric.compute i b (m, s)).1, (metric.compute i b (m, s)).2, x)

theorem computeAll_lift {i : Nat} {b : Broadcast α} {metrics : List (Metric α σ)} :
    ∀ {m : Measures α} {s : σ} {x : τ}, computeAll (metrics.map lift) i b (m, s, x) =
      ((computeAll metrics i b (m, s)).1, (computeAll metrics i b (m, s)).2, x) := by
  induction metrics with
  | nil => exact rfl
  | cons metric metrics ih => exact ih

end Metric

/-! ## Places -/

namespace Observer

/-- The observer at a place: the numbers of the children on the way to it. -/
def at? : List Nat → Observer α σ → Option (Observer α σ)
  | [], o => some o
  | _ :: _, leaf _ => none
  | i :: q, monitor _ children _ => children[i]?.bind (at? q)

mutual

/-- All places of an observer, each before those below it and these child by child. -/
def places : Observer α σ → List (List Nat)
  | leaf _ => [[]]
  | monitor _ children _ => [] :: placesFrom 0 children

def placesFrom : Nat → List (Observer α σ) → List (List Nat)
  | _, [] => []
  | i, child :: rest => child.places.map (i :: ·) ++ placesFrom (i + 1) rest

end

mutual

theorem mem_places : ∀ {o : Observer α σ} {q : List Nat}, q ∈ o.places ↔ (o.at? q).isSome
  | leaf _, [] => by simp [places, at?]
  | leaf _, _ :: _ => by simp [places, at?]
  | monitor _ _ _, [] => by simp [places, at?]
  | monitor _ children _, i :: q => by
    rw [places, List.mem_cons, mem_placesFrom, at?]
    simp

theorem mem_placesFrom : ∀ {children : List (Observer α σ)} {i : Nat} {q : List Nat},
    q ∈ placesFrom i children ↔ ∃ j r, q = (i + j) :: r ∧ (children[j]?.bind (at? r)).isSome
  | [], i, q => by simp [placesFrom]
  | child :: rest, i, q => by
    rw [placesFrom, List.mem_append, List.mem_map, mem_placesFrom]
    constructor
    · rintro (⟨r, hr, rfl⟩ | ⟨j, r, rfl, hr⟩)
      · exact ⟨0, r, rfl, mem_places.1 hr⟩
      · exact ⟨j + 1, r, by rw [Nat.add_assoc, Nat.add_comm 1], hr⟩
    · rintro ⟨_ | j, r, rfl, hr⟩
      · exact .inl ⟨r, mem_places.2 hr, rfl⟩
      · exact .inr ⟨j, r, by rw [Nat.add_assoc, Nat.add_comm 1], hr⟩

end

mutual

/-- The places come in lexicographic order, so that none comes twice. -/
theorem pairwise_places : ∀ o : Observer α σ, o.places.Pairwise (· < ·)
  | leaf _ => List.pairwise_singleton _ _
  | monitor _ children _ => by
    rw [places, List.pairwise_cons]
    refine ⟨fun q hq => ?_, pairwise_placesFrom 0 children⟩
    obtain ⟨j, r, rfl, -⟩ := mem_placesFrom.1 hq
    exact List.nil_lt_cons _ _

theorem pairwise_placesFrom : ∀ (i : Nat) (children : List (Observer α σ)),
    (placesFrom i children).Pairwise (· < ·)
  | _, [] => List.Pairwise.nil
  | i, child :: rest => by
    rw [placesFrom, List.pairwise_append, List.pairwise_map]
    refine ⟨?_, pairwise_placesFrom (i + 1) rest, ?_⟩
    · exact (pairwise_places child).imp fun h => List.cons_lt_cons_iff.2 (.inr ⟨rfl, h⟩)
    · intro q hq q' hq'
      obtain ⟨r, -, rfl⟩ := List.mem_map.1 hq
      obtain ⟨j, r', rfl, -⟩ := mem_placesFrom.1 hq'
      exact List.cons_lt_cons_iff.2 (.inl (by omega))

end

/-- What the log has of one place. -/
theorem filter_log {places : List (List Nat)} {q : List Nat} (hnodup : places.Nodup)
    (hq : q ∈ places) (events : List (Event α)) :
    ((events.flatMap fun event => places.map fun q => (q, event)).filter
      fun entry => entry.1 = q).map Prod.snd = events := by
  have hone : ∀ event : Event α,
      (places.map fun q => (q, event)).filter (fun entry => entry.1 = q) = [(q, event)] := by
    intro event
    have hplace : places.filter (fun r => r = q) = [q] := by
      rw [List.filter_eq, List.count_eq_one_of_mem hnodup hq, List.replicate_one]
    rw [List.filter_map, Function.comp_def, hplace, List.map_singleton]
  rw [List.filter_flatMap, List.map_flatMap]
  simp [hone]

end Observer

/-! ## Events -/

theorem Training.replay_append (notify : Event α → τ → τ) (earlier later : List (Event α)) (x : τ) :
    replay notify (earlier ++ later) x = replay notify later (replay notify earlier x) :=
  List.foldl_append

/-- Writing down what is replayed is to append it. -/
theorem Training.replay_record : ∀ events earlier : List (Event α),
    replay record events earlier = earlier ++ events
  | [], earlier => (List.append_nil earlier).symm
  | _ :: events, _ => (replay_record events _).trans (List.append_assoc ..)

section

variable [Arithmetic] [Scalar α]

/-- The measures of an iteration: the tokens of the merged model, what the metrics compute from it,
and the perplexity if there is one. -/
def Measures.ofIteration (metrics : List (Metric α σ)) (i : Nat) (b : Broadcast α)
    (perplexity? : Option α) (s : σ) : Measures α :=
  let tokens := ({} : Measures α).insert "tokens" (Scalar.ofInt b.tokenCount)
  let m := (Metric.computeAll metrics i b (tokens, s)).1
  match perplexity? with
  | none => m
  | some p => m.insert "perplexity" p

/-- What the measures of an iteration hold under a name that the metrics leave alone. -/
theorem Measures.get?_ofIteration {metrics : List (Metric α σ)} {i : Nat} {b : Broadcast α}
    {perplexity? : Option α} {s : σ} {name : String}
    (h : ∀ metric ∈ metrics, metric.Keeps name) :
    (ofIteration metrics i b perplexity? s).get? name =
      if name = "tokens" then some (Scalar.ofInt b.tokenCount)
      else if name = "perplexity" then perplexity? else none := by
  have htokens := Metric.get?_computeAll (i := i) (b := b)
    (x := (({} : Measures α).insert "tokens" (Scalar.ofInt b.tokenCount), s)) h
  rw [get?_insert, show ({} : Measures α).get? name = none from rfl] at htokens
  cases perplexity? with
  | none =>
    rw [ofIteration, htokens]
    simp
  | some p =>
    rw [ofIteration, get?_insert, htokens]
    by_cases hp : name = "perplexity"
    · subst hp
      simp
    · simp [hp]

namespace Observer

variable {o : Observer α σ} {event : Event α} {s : σ}

/-- Shows an event to an observer that is kept with its shared state. -/
def watch (event : Event α) (x : Observer α σ × σ) : Observer α σ × σ := x.1.notify event x.2

theorem getElem?_notifyAll (event : Event α) :
    ∀ (children : List (Observer α σ)) (s : σ) (i : Nat), ∃ s',
      (notifyAll children event s).1[i]? = children[i]?.map fun child => (child.notify event s').1
  | [], s, _ => ⟨s, rfl⟩
  | _ :: _, s, 0 => ⟨s, rfl⟩
  | child :: rest, s, i + 1 => getElem?_notifyAll event rest (child.notify event s).2 i

/-- An event reaches the observer at every place, with what the state is when it gets there. -/
theorem at?_notify (event : Event α) : ∀ (q : List Nat) (o : Observer α σ) (s : σ), ∃ s',
    (o.notify event s).1.at? q = (o.at? q).map fun below => (below.notify event s').1
  | [], _, s => ⟨s, rfl⟩
  | _ :: _, leaf _, s => ⟨s, rfl⟩
  | i :: q, monitor metrics children measures, s => by
    obtain ⟨s₁, hchild⟩ :=
      getElem?_notifyAll event children (updateMeasures metrics measures s event).2 i
    have hat : ((monitor metrics children measures).notify event s).1.at? (i :: q) =
        (notifyAll children event (updateMeasures metrics measures s event).2).1[i]?.bind
          (at? q) := rfl
    rw [hat, hchild, at?]
    cases children[i]? with
    | none => exact ⟨s, rfl⟩
    | some child => exact at?_notify event q child s₁

mutual

theorem places_notify : ∀ {o : Observer α σ} {s : σ}, (o.notify event s).1.places = o.places
  | leaf _, _ => rfl
  | monitor _ _ _, _ => congrArg (List.cons []) placesFrom_notifyAll

theorem placesFrom_notifyAll : ∀ {children : List (Observer α σ)} {i : Nat} {s : σ},
    placesFrom i (notifyAll children event s).1 = placesFrom i children
  | [], _, _ => rfl
  | child :: rest, i, s => by
    rw [notifyAll, placesFrom, placesFrom, places_notify, placesFrom_notifyAll]

end

/-! ## Logs -/

mutual

/-- The observer with a log: at every place an event is written down when it arrives, under the
name of the place. A monitor does so by one more child, before the others. -/
def logged (name : List Nat → List Nat) :
    Observer α σ → Observer α (σ × List (List Nat × Event α))
  | leaf handle => leaf fun event (s, log) => (handle event s, log ++ [(name [], event)])
  | monitor metrics children measures =>
    monitor (metrics.map Metric.lift)
      (leaf (fun event (s, log) => (s, log ++ [(name [], event)])) :: loggedFrom name 0 children)
      measures

def loggedFrom (name : List Nat → List Nat) :
    Nat → List (Observer α σ) → List (Observer α (σ × List (List Nat × Event α)))
  | _, [] => []
  | i, child :: rest => child.logged (fun q => name (i :: q)) :: loggedFrom name (i + 1) rest

end

theorem updateMeasures_lift {metrics : List (Metric α σ)} {measures : Measures α} {x : τ} :
    updateMeasures (metrics.map Metric.lift) measures (s, x) event =
      ((updateMeasures metrics measures s event).1,
        (updateMeasures metrics measures s event).2, x) := by
  cases event with
  | during => exact Metric.computeAll_lift
  | _ => rfl

mutual

/-- An event leaves one entry of the log for each place and does otherwise what it does without. -/
theorem notify_logged : ∀ (o : Observer α σ) (name : List Nat → List Nat) (s : σ)
    (log : List (List Nat × Event α)), (o.logged name).notify event (s, log) =
      ((o.notify event s).1.logged name, (o.notify event s).2,
        log ++ o.places.map fun q => (name q, event))
  | leaf _, _, _, _ => rfl
  | monitor metrics children measures, name, s, log => by
    have hchildren := notifyAll_logged children name 0
      (updateMeasures metrics measures s event).2 (log ++ [(name [], event)])
    simp only [logged, notify, updateMeasures_lift, notifyAll, hchildren, places, List.map_cons,
      List.append_assoc, List.singleton_append]

theorem notifyAll_logged : ∀ (children : List (Observer α σ)) (name : List Nat → List Nat)
    (i : Nat) (s : σ) (log : List (List Nat × Event α)),
    notifyAll (loggedFrom name i children) event (s, log) =
      (loggedFrom name i (notifyAll children event s).1, (notifyAll children event s).2,
        log ++ (placesFrom i children).map fun q => (name q, event))
  | [], _, _, _, _ => by simp [loggedFrom, notifyAll, placesFrom]
  | child :: rest, name, i, s, log => by
    simp only [loggedFrom, notifyAll, notify_logged, notifyAll_logged, placesFrom, List.map_append,
      List.map_map, List.append_assoc, Function.comp_def]

end

/-- The log of a run: every event with every place, in the order of the places. -/
theorem replay_logged {name : List Nat → List Nat} : ∀ {events : List (Event α)}
    {o : Observer α σ} {s : σ} {log : List (List Nat × Event α)},
    Training.replay watch events (o.logged name, s, log) =
      ((Training.replay watch events (o, s)).1.logged name,
        (Training.replay watch events (o, s)).2,
        log ++ events.flatMap fun event => o.places.map fun q => (name q, event))
  | [], o, s, log => by simp [Training.replay]
  | event :: events, o, s, log => by
    have hfirst : Training.replay watch (event :: events) (o.logged name, s, log) =
        Training.replay watch events ((o.logged name).notify event (s, log)) := rfl
    rw [hfirst, notify_logged, replay_logged, places_notify, List.flatMap_cons, List.append_assoc]
    rfl

/-! ## Iterations -/

variable {q : List Nat} {metrics : List (Metric α σ)} {children : List (Observer α σ)}
  {measures : Measures α} {x : Observer α σ × σ}

/-- An event updates the measures of the monitor at a place and nothing else of it. -/
theorem at?_watch (event : Event α) (h : x.1.at? q = some (monitor metrics children measures)) :
    ∃ children' s', (watch event x).1.at? q =
      some (monitor metrics children' (updateMeasures metrics measures s' event).1) := by
  obtain ⟨s', hat⟩ := at?_notify event q x.1 x.2
  rw [h] at hat
  exact ⟨_, s', hat⟩

theorem at?_replay : ∀ (events : List (Event α)) {x : Observer α σ × σ} {measures : Measures α}
    {children : List (Observer α σ)}, x.1.at? q = some (monitor metrics children measures) →
    ∃ children' measures', (Training.replay watch events x).1.at? q =
      some (monitor metrics children' measures')
  | [], _, measures, children, h => ⟨children, measures, h⟩
  | event :: events, _, _, _, h => by
    obtain ⟨_, _, hnext⟩ := at?_watch event h
    exact at?_replay events hnext

variable {f : FitOptions α} {b : Nat → Broadcast α} {p : Nat → α} {i : Nat}

/-- After an iteration the monitor at a place has the measures of that iteration. -/
theorem at?_replay_step (earlier : List (Event α))
    (h : x.1.at? q = some (monitor metrics children measures)) :
    ∃ children' s', (Training.replay watch (earlier ++ Trace.step f b p i) x).1.at? q =
      some (monitor metrics children' (.ofIteration metrics i (b i)
        (if Trace.Evaluates f i then some (p i) else none) s')) := by
  obtain ⟨_, _, hearlier⟩ := at?_replay earlier h
  -- the start clears the measures, so that those from earlier do not matter
  obtain ⟨_, _, hbefore⟩ := at?_watch (.before i) hearlier
  obtain ⟨_, s', hduring⟩ := at?_watch (.during i (b i)) hbefore
  rw [Training.replay_append, Trace.step]
  by_cases he : Trace.Evaluates f i
  · obtain ⟨_, _, hevaluated⟩ := at?_watch (.evaluated i (p i)) hduring
    obtain ⟨children', _, hafter⟩ := at?_watch (.after i) hevaluated
    rw [if_pos he, if_pos he]
    exact ⟨children', s', hafter⟩
  · obtain ⟨children', _, hafter⟩ := at?_watch (.after i) hduring
    rw [if_neg he, if_neg he]
    exact ⟨children', s', hafter⟩

/-- For the observer of a run the state that its metrics start from is the one that the announced
beginning of the iteration has left. -/
theorem measures_replay_step (earlier : List (Event α)) (metrics : List (Metric α σ))
    (children : List (Observer α σ)) (measures : Measures α) (s : σ) :
    let x := (monitor metrics children measures, s)
    (Training.replay watch (earlier ++ Trace.step f b p i) x).1.measures =
      .ofIteration metrics i (b i) (if Trace.Evaluates f i then some (p i) else none)
        (Training.replay watch (earlier ++ [.before i]) x).2 := by
  intro x
  obtain ⟨children', measures', hearlier⟩ := at?_replay (q := []) (x := x) earlier rfl
  rw [Training.replay_append, Training.replay_append]
  generalize Training.replay watch earlier x = y at hearlier
  obtain ⟨o, s'⟩ := y
  obtain rfl := Option.some.inj hearlier
  rw [Trace.step]
  by_cases he : Trace.Evaluates f i
  · rw [if_pos he, if_pos he]
    rfl
  · rw [if_neg he, if_neg he]
    rfl

end Observer

end

/-! ## Runs -/

theorem prefix_concat_of_forall_not {P : τ → Prop} {pre xs ys : List τ} {x y : τ} (hx : P x)
    (hxs : ∀ z ∈ xs, ¬ P z) (hys : ∀ z ∈ ys, ¬ P z) (h : pre ++ [x] <+: xs ++ y :: ys) :
    pre = xs ∧ x = y := by
  obtain ⟨zs, hzs⟩ := h
  rw [List.append_assoc, List.singleton_append, List.append_eq_append_iff] at hzs
  obtain ⟨as, has, htail⟩ | ⟨bs, hbs, htail⟩ := hzs
  · cases as with
    | nil => exact ⟨by simpa using has.symm, (List.cons.inj htail).1⟩
    | cons a as =>
      obtain rfl := (List.cons.inj htail).1
      exact absurd hx (hxs x (by simp [has]))
  · cases bs with
    | nil => exact ⟨by simpa using hbs, (List.cons.inj htail).1.symm⟩
    | cons c bs =>
      exact absurd hx (hys x (by simp [(List.cons.inj htail).2]))

namespace Trace

variable {f : FitOptions α} {b : Nat → Broadcast α} {p : Nat → α} {i n : Nat}
  {pre rest : List (Event α)}

theorem step_eq (f : FitOptions α) (b : Nat → Broadcast α) (p : Nat → α) (i : Nat) :
    step f b p i = .before i :: .during i (b i) ::
      ((if Evaluates f i then some (p i) else none).map (Event.evaluated i)).toList ++
        [.after i] := by
  rw [step]
  by_cases h : Evaluates f i <;> simp [h]

/-- Up to the end of an iteration the events are those of the iterations so far. -/
theorem prefix_events : ∀ {n : Nat} {rest : List (Event α)}, (∀ j, .after j ∉ rest) →
    pre ++ [.after i] <+: events f b p n ++ rest →
    i < n ∧ pre ++ [.after i] = events f b p (i + 1)
  | 0, rest, hrest, h => absurd (h.subset (by simp)) (hrest i)
  | n + 1, rest, hrest, h => by
    rw [events_succ, List.append_assoc] at h
    have hnil : ∀ j, Event.after (α := α) j ∉ [] := fun j => List.not_mem_nil
    have hearlier : pre ++ [.after i] <+: events f b p n →
        i < n + 1 ∧ pre ++ [.after i] = events f b p (i + 1) := fun hn => by
      rw [← List.append_nil (events f b p n)] at hn
      obtain ⟨hi, heq⟩ := prefix_events hnil hn
      exact ⟨Nat.lt_succ_of_lt hi, heq⟩
    obtain hn | ⟨last, hlast⟩ :=
      List.prefix_or_prefix_of_prefix h (List.prefix_append (events f b p n) _)
    · exact hearlier hn
    · obtain rfl | ⟨work, y, rfl⟩ := List.eq_nil_or_concat last
      · rw [List.append_nil] at hlast
        exact hearlier (hlast ▸ List.prefix_refl _)
      · rw [List.concat_eq_append, ← List.append_assoc] at hlast
        obtain ⟨rfl, hy⟩ := List.append_inj' hlast rfl
        obtain rfl := List.singleton_inj.1 hy
        -- only the last event of an iteration announces its end
        have hwork : ∀ e ∈ .before n :: .during n (b n) ::
            ((if Evaluates f n then some (p n) else none).map (Event.evaluated n)).toList,
            ¬ ∃ j, e = .after j := by
          by_cases he : Evaluates f n <;> simp [he]
        rw [List.append_assoc, List.prefix_append_right_inj, step_eq, List.append_assoc] at h
        obtain ⟨rfl, hi⟩ := prefix_concat_of_forall_not (P := fun e => ∃ j, e = .after j)
          ⟨i, rfl⟩ hwork (fun e he ⟨j, hj⟩ => hrest j (hj ▸ he)) h
        obtain rfl := Event.after.inj hi
        exact ⟨Nat.lt_succ_self i, by rw [events_succ, step_eq, List.append_assoc]⟩

/-- The history has a perplexity for the iterations that were evaluated. -/
theorem lookup_evaluations : ∀ {n : Nat}, (evaluations f p n).lookup i =
    if i < n ∧ Evaluates f i then some (p i) else none
  | 0 => by simp [evaluations]
  | n + 1 => by
    rw [evaluations_succ, List.lookup_append, lookup_evaluations]
    by_cases hi : i = n
    · subst hi
      by_cases he : Evaluates f i <;> simp [he]
    · have hlast : (if Evaluates f n then [(n, p n)] else []).lookup i = none := by
        split
        · rw [lookup_cons_eq_ite, if_neg hi]
          rfl
        · rfl
      rw [hlast, Option.or_none]
      refine if_congr (and_congr_left' ?_) rfl rfl
      omega

end Trace

namespace Model

section

variable [Arithmetic] [Scalar α] {m : Model α} {w : Worker} {f : FitOptions α}

/-- The events of a fit: what a watcher has that writes them down. -/
def announced (m : Model α) (w : Worker) (f : FitOptions α) : List (Event α) :=
  (m.fitWorker w f Training.record []).1.watcher

/-- A fit shows its events to the watcher and does not depend on it otherwise. -/
theorem fitWorker_watcher (m : Model α) (w : Worker) (f : FitOptions α) (notify : Event α → τ → τ)
    (x : τ) :
    (m.fitWorker w f notify x).1.watcher = Training.replay notify (m.announced w f) x ∧
    (m.fitWorker w f notify x).1.model = (m.fitWorker w f Training.record []).1.model := by
  rw [announced]
  cases htally : w.tally m.options with
  | error e =>
    have hfit : ∀ {υ : Type} (notify : Event α → υ → υ) (x : υ),
        (m.fitWorker w f notify x).1 = ⟨.error e, m, x⟩ := fun notify x => by
      rw [fitWorker, htally]
    rw [hfit, hfit]
    exact ⟨rfl, rfl⟩
  | ok tally =>
    rw [fitWorker_eq htally, fitWorker_eq htally]
    refine ⟨?_, rfl⟩
    exact congrArg (Training.replay notify · x) (Training.replay_record _ []).symm

/-- A fit announces the events of `n` iterations that succeed and at most the beginning of one that
fails, and its history has the evaluations of the `n`. -/
theorem announced_eq {tally : Tally} (h : w.tally m.options = .ok tally) :
    let start := m.startFrom w f tally ([] : List (Event α))
    let fit := (m.fitWorker w f Training.record []).1
    ∃ n rest, m.announced w f = Trace.events f start.modelAfter start.perplexityAfter n ++ rest ∧
      (∀ j, .after j ∉ rest) ∧
      (∀ i < n, (start.modelAfter i).iteration = unsigned 64 (i + 1)) ∧
      fit.model.history = Trace.evaluations f start.perplexityAfter n ∧
      (fit.result = .ok () → rest = [] ∧
        (Trace.Converges f start.perplexityAfter n ∨ n = f.iters)) := by
  intro start fit
  have hends : start.Ends f (0 + f.iters)
      ((start.completed f 0).run f Training.record f.iters 0) := by
    refine Training.run_completed (fun i hi => absurd hi (Nat.not_lt_zero i)) ?_
    rintro m hm ⟨hpos, -, hle, -⟩
    omega
  rw [Nat.zero_add] at hends
  have hfit : fit = m.fitOfRun _ := fitWorker_eq h f Training.record []
  change start.Ends f f.iters ((m.startFrom w f tally []).run f Training.record f.iters 0) at hends
  generalize (m.startFrom w f tally []).run f Training.record f.iters 0 = run at hends hfit
  have hevents : m.announced w f = run.2.watcher := by
    have hwatcher : m.announced w f = fit.watcher := rfl
    rw [hwatcher, hfit]
    exact (Training.replay_record run.2.watcher []).trans (List.nil_append _)
  have hiteration : ∀ {n}, (∀ i < n, start.Completes f i) → ∀ i < n,
      (start.modelAfter i).iteration = unsigned 64 (i + 1) := by
    intro n hall i hi
    exact Training.iteration_stage rfl fun j hj => (hall j (by omega)).advance_ok
  rw [hevents, hfit]
  cases hends with
  | @finished n hn hall hstop =>
    refine ⟨n, [], (List.append_nil _).symm, fun j => List.not_mem_nil, hiteration hall, rfl,
      fun _ => ⟨rfl, ?_⟩⟩
    exact hstop.imp (fun hleast => hleast.1.2) And.right
  | @failed i e t' hi hall _ hfails =>
    rcases hfails.events_eq with hevents | ⟨-, -, hevents⟩
    · exact ⟨i, _, hevents, by simp, hiteration hall, hfails.history_eq, fun he => by cases he⟩
    · exact ⟨i, _, hevents, by simp, hiteration hall, hfails.history_eq, fun he => by cases he⟩

/-- Where the end of an iteration is announced: what has been announced are the iterations so far,
the last with its merged model and, if it was evaluated, the perplexity that the history has. -/
theorem announced_prefix {pre : List (Event α)} {i : Nat}
    (h : pre ++ [.after i] <+: m.announced w f) : ∃ b p,
      pre ++ [.after i] = Trace.events f b p i ++ Trace.step f b p i ∧
      (b i).iteration = unsigned 64 (i + 1) ∧
      (m.fitWorker w f Training.record []).1.model.history.lookup i =
        if Trace.Evaluates f i then some (p i) else none := by
  cases htally : w.tally m.options with
  | error e =>
    have hnone : m.announced w f = [] := by rw [announced, fitWorker, htally]
    rw [hnone] at h
    exact absurd (List.prefix_nil.1 h) (by simp)
  | ok tally =>
    obtain ⟨n, rest, hevents, hrest, hiteration, hhistory, -⟩ := announced_eq htally
    rw [hevents] at h
    obtain ⟨hi, hpast⟩ := Trace.prefix_events hrest h
    rw [Trace.events_succ] at hpast
    refine ⟨_, _, hpast, hiteration i hi, ?_⟩
    rw [hhistory, Trace.lookup_evaluations]
    exact if_congr (and_iff_right hi) rfl rfl

end

end Model

end TopicModel
