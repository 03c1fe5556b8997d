import Mathlib.Data.List.Forall2
import Mathlib.Data.List.Induction
import TopicModel.Proofs.CacheFree

/-!
# Histories of a cache

`Call` is what may happen to a cache: counts are requested, and changed at will by whoever is lent
them, or given up. `history` lists the calls made one after the other with their answers, and `held`
is what its last call says about the next one: the counts that a granted request left, with its key.

* `entry_after`: after any calls on a new cache it holds `held` of their history, nothing else.
* `decodes_after`: its number of copies is the number of requests granted without reuse.
* `SameFor.history`: calls that differ only in what is done to the counts of other keys have the
  same answers under a key.
* `cache_follows_history`: the answers to a request and to a release, as the history decides them.
-/

namespace TopicModel.ScanCache

variable {α : Type}

/-- A call on a cache; `change` is what the caller makes of the counts that it is lent. -/
inductive Call where
  | acquire (key : ScanKey) (vocSize topicNum : Nat) (flat : Array Int) (change : Counts → Counts)
  | release (key : ScanKey)

def Call.key : Call → ScanKey
  | .acquire key _ _ _ _ => key
  | .release key => key

/-- What a caller is told. -/
inductive Answer (α : Type) where
  /-- The counts lent, as they were before the caller changed them. -/
  | lent (counts : Counts)
  | refused (cause : Error α)
  | released (counts : Option Counts)
deriving DecidableEq

/-- The answer to a request that finds no counts of its scan. -/
def Answer.ofFlat (vocSize topicNum : Nat) (flat : Array Int) : Answer α :=
  match Counts.ofFlat vocSize topicNum flat with
  | .ok counts => .lent counts
  | .error cause => .refused cause

section
variable (α)

def perform (c : ScanCache) : Call → Answer α × ScanCache
  | .acquire key vocSize topicNum flat change =>
    match c.acquire key vocSize topicNum flat fun counts => (counts, change counts) with
    | (.ok counts, c) => (.lent counts, c)
    | (.error cause, c) => (.refused cause, c)
  | .release key =>
    let (counts, c) := c.release key
    (.released counts, c)

/-- The cache after calls. -/
def after (c : ScanCache) (calls : List Call) : ScanCache :=
  calls.foldl (fun c call => (c.perform α call).2) c

/-- Calls with their answers. -/
def history (c : ScanCache) : List Call → List (Call × Answer α)
  | [] => []
  | call :: calls => (call, (c.perform α call).1) :: history (c.perform α call).2 calls

/-- What a new cache answers to a call after others. -/
def answerAfter (calls : List Call) (call : Call) : Answer α :=
  ((after α {} calls).perform α call).1

end

/-- The counts that a call leaves in the cache: those of a granted request, changed. -/
def left : Call × Answer α → Option (ScanKey × Counts)
  | (.acquire key _ _ _ change, .lent counts) => some (key, change counts)
  | _ => none

/-- The counts that the last call of a history left. -/
def held (past : List (Call × Answer α)) : Option (ScanKey × Counts) := past.getLast?.bind left

/-- Whether the call at a place of a history was granted counts that the call before it had not
left. -/
def isDecode (past : List (Call × Answer α)) (n : Nat) : Bool :=
  match past[n]? with
  | some (.acquire key _ _ _ _, .lent _) => (held (past.take n)).map Prod.fst != some key
  | _ => false

/-! ## One call -/

theorem acquire_of_held {c : ScanCache} {key : ScanKey} {V K : Nat} {flat : Array Int}
    {change : Counts → Counts} {counts : Counts} (h : c.entry = some (key, counts)) :
    c.perform α (.acquire key V K flat change) =
      (.lent counts, ⟨some (key, change counts), c.decodes⟩) := by
  obtain ⟨entry, n⟩ := c
  obtain rfl : entry = some (key, counts) := h
  rw [perform, acquire_held]

theorem acquire_of_not_held {c : ScanCache} {key : ScanKey} {V K : Nat} {flat : Array Int}
    {change : Counts → Counts} (h : ∀ counts, c.entry ≠ some (key, counts)) :
    c.perform α (.acquire key V K flat change) =
      match Counts.ofFlat V K flat with
      | .ok counts => (.lent counts, ⟨some (key, change counts), c.decodes + 1⟩)
      | .error cause => (.refused cause, ⟨none, c.decodes⟩) := by
  have hdecode : c.acquire (α := α) key V K flat (fun counts => (counts, change counts)) =
      acquire.decode key V K flat (fun counts => (counts, change counts)) c.decodes := by
    obtain ⟨_ | ⟨held, counts⟩, n⟩ := c
    · rfl
    · have hne : held ≠ key := by
        rintro rfl
        exact h counts rfl
      rw [acquire, if_neg hne]
  rw [perform, hdecode, acquire.decode]
  cases Counts.ofFlat (α := α) V K flat <;> rfl

theorem release_of_held {c : ScanCache} {key : ScanKey} {counts : Counts}
    (h : c.entry = some (key, counts)) :
    c.perform α (.release key) = (.released (some counts), ⟨none, c.decodes⟩) := by
  obtain ⟨entry, n⟩ := c
  obtain rfl : entry = some (key, counts) := h
  simp [perform, release]

theorem release_of_not_held {c : ScanCache} {key : ScanKey}
    (h : ∀ counts, c.entry ≠ some (key, counts)) :
    c.perform α (.release key) = (.released none, ⟨none, c.decodes⟩) := by
  obtain ⟨_ | ⟨held, counts⟩, n⟩ := c
  · rfl
  · have hne : held ≠ key := by
      rintro rfl
      exact h counts rfl
    simp [perform, release, hne]

/-- A release empties the cache. -/
theorem released (c : ScanCache) (key : ScanKey) :
    (c.perform α (.release key)).2 = ⟨none, c.decodes⟩ := c.release_snd

/-- A call finds the counts of its scan or it does not. -/
theorem held_or_not (c : ScanCache) (key : ScanKey) :
    (∃ counts, c.entry = some (key, counts)) ∨ ∀ counts, c.entry ≠ some (key, counts) := by
  by_cases h : ∃ counts, c.entry = some (key, counts)
  · exact .inl h
  · exact .inr fun counts hc => h ⟨counts, hc⟩

theorem entry_perform (c : ScanCache) (call : Call) :
    (c.perform α call).2.entry = left (call, (c.perform α call).1) := by
  cases call with
  | acquire key V K flat change =>
    rcases c.held_or_not key with ⟨counts, h⟩ | h
    · rw [acquire_of_held h]
      rfl
    · rw [acquire_of_not_held h]
      cases Counts.ofFlat (α := α) V K flat <;> rfl
  | release key =>
    rw [released]
    rfl

theorem decodes_perform (c : ScanCache) (call : Call) :
    (c.perform α call).2.decodes = c.decodes +
      match call, (c.perform α call).1 with
      | .acquire key _ _ _ _, .lent _ => if c.entry.map Prod.fst = some key then 0 else 1
      | _, _ => 0 := by
  cases call with
  | acquire key V K flat change =>
    rcases c.held_or_not key with ⟨counts, h⟩ | h
    · simp [acquire_of_held h, h]
    · have hkey : c.entry.map Prod.fst ≠ some key := by
        intro hkey
        obtain ⟨⟨k, counts⟩, hc, rfl⟩ := Option.map_eq_some_iff.1 hkey
        exact h counts hc
      rw [acquire_of_not_held h]
      cases Counts.ofFlat (α := α) V K flat <;> simp [hkey]
  | release key =>
    rw [released]
    rfl

/-! ## Calls one after the other -/

theorem after_append (c : ScanCache) (calls others : List Call) :
    after α c (calls ++ others) = after α (after α c calls) others :=
  List.foldl_append

theorem after_concat (c : ScanCache) (calls : List Call) (call : Call) :
    after α c (calls ++ [call]) = ((after α c calls).perform α call).2 :=
  after_append c calls [call]

theorem history_append : ∀ (c : ScanCache) (calls others : List Call),
    history α c (calls ++ others) = history α c calls ++ history α (after α c calls) others
  | _, [], _ => rfl
  | _, _ :: calls, others => congrArg (List.cons _) (history_append _ calls others)

theorem history_concat (c : ScanCache) (calls : List Call) (call : Call) :
    history α c (calls ++ [call]) =
      history α c calls ++ [(call, ((after α c calls).perform α call).1)] :=
  history_append c calls [call]

theorem length_history : ∀ (c : ScanCache) (calls : List Call),
    (history α c calls).length = calls.length
  | _, [] => rfl
  | _, _ :: calls => congrArg (· + 1) (length_history _ calls)

theorem held_concat (past : List (Call × Answer α)) (x : Call × Answer α) :
    held (past ++ [x]) = left x := by
  rw [held, List.getLast?_concat, Option.bind_some]

/-- Only a granted request leaves counts. -/
theorem isSome_held_iff {past : List (Call × Answer α)} :
    (held past).isSome = true ↔ ∃ before key V K flat change counts,
      past = before ++ [(.acquire key V K flat change, .lent counts)] := by
  constructor
  · intro h
    rcases List.eq_nil_or_concat' past with rfl | ⟨before, ⟨call, answer⟩, rfl⟩
    · cases h
    · rw [held_concat] at h
      unfold left at h
      split at h
      · rename_i key V K flat change counts hx
        cases hx
        exact ⟨before, key, V, K, flat, change, counts, rfl⟩
      · cases h
  · rintro ⟨before, key, V, K, flat, change, counts, rfl⟩
    rw [held_concat]
    rfl

/-- A new cache holds what the last call left. -/
theorem entry_after (calls : List Call) :
    (after α {} calls).entry = held (history α {} calls) := by
  induction calls using List.reverseRecOn with
  | nil => rfl
  | append_singleton calls call _ =>
    rw [after_concat, history_concat, entry_perform, held_concat]

/-- A new cache has made one copy for every request that was granted without reuse. -/
theorem decodes_after (calls : List Call) :
    (after α {} calls).decodes =
      (List.range calls.length).countP (isDecode (history α {} calls)) := by
  induction calls using List.reverseRecOn with
  | nil => rfl
  | append_singleton calls call ih =>
    have hlength : (history α {} calls).length = calls.length := length_history {} calls
    have hearlier : (List.range calls.length).countP
          (isDecode (history α {} (calls ++ [call]))) =
        (List.range calls.length).countP (isDecode (history α {} calls)) := by
      refine List.countP_congr fun n hn => ?_
      have hn : n < (history α {} calls).length := by rwa [hlength, ← List.mem_range]
      rw [history_concat, isDecode, isDecode, List.getElem?_append_left hn,
        List.take_append_of_le_length (Nat.le_of_lt hn)]
    have hlast : (history α {} (calls ++ [call]))[calls.length]? =
        some (call, ((after α {} calls).perform α call).1) := by
      rw [history_concat, ← hlength, List.getElem?_concat_length]
    have hbefore : (history α {} (calls ++ [call])).take calls.length = history α {} calls := by
      rw [history_concat, ← hlength, List.take_left]
    rw [List.length_append, List.length_singleton, List.range_succ, List.countP_append, hearlier,
      ← ih, after_concat, decodes_perform, List.countP_singleton, isDecode, hlast, hbefore,
      ← entry_after]
    congr 1
    cases call with
    | release key => rfl
    | acquire key V K flat change =>
      cases ((after α {} calls).perform α (.acquire key V K flat change)).1 with
      | lent counts => by_cases h : (after α {} calls).entry.map Prod.fst = some key <;> simp [h]
      | refused cause => rfl
      | released counts => rfl

/-! ## What a key does not see -/

/-- The calls ask for the same, and under the key the caller also makes the same change. -/
inductive Alike (key : ScanKey) : Call → Call → Prop where
  | acquire {k : ScanKey} {V K : Nat} {flat : Array Int} {change change' : Counts → Counts} :
      (k = key → change = change') →
      Alike key (.acquire k V K flat change) (.acquire k V K flat change')
  | release {k : ScanKey} : Alike key (.release k) (.release k)

theorem Alike.refl (key : ScanKey) : ∀ call, Alike key call call
  | .acquire .. => .acquire fun _ => rfl
  | .release _ => .release

/-- The caches hold counts of the same scan or none, and the same counts if it is that of the
key. -/
def SameFor (key : ScanKey) (c c' : ScanCache) : Prop :=
  Option.Rel (fun x y => x.1 = y.1 ∧ (x.1 = key → x.2 = y.2)) c.entry c'.entry

namespace SameFor

variable {key : ScanKey} {c c' : ScanCache} {call call' : Call}

theorem of_entry_eq (h : c.entry = c'.entry) : SameFor key c c' := by
  unfold SameFor
  rw [h]
  cases c'.entry with
  | none => exact .none
  | some entry => exact .some ⟨rfl, fun _ => rfl⟩

theorem entry_some {k : ScanKey} {counts : Counts} (h : SameFor key c c')
    (hc : c.entry = some (k, counts)) :
    ∃ counts', c'.entry = some (k, counts') ∧ (k = key → counts = counts') := by
  unfold SameFor at h
  rw [hc] at h
  cases hc' : c'.entry with
  | none =>
    rw [hc'] at h
    cases h
  | some entry =>
    obtain ⟨k', counts'⟩ := entry
    rw [hc'] at h
    cases h with
    | some hrel =>
      obtain ⟨rfl, hcounts⟩ := hrel
      exact ⟨counts', rfl, hcounts⟩

theorem symm (h : SameFor key c c') : SameFor key c' c := by
  unfold SameFor at h ⊢
  generalize c.entry = entry, c'.entry = entry' at h
  cases h with
  | none => exact .none
  | some hrel => exact .some ⟨hrel.1.symm, fun hk => (hrel.2 (hrel.1.trans hk)).symm⟩

theorem not_held {k : ScanKey} (h : SameFor key c c') (hc : ∀ counts, c.entry ≠ some (k, counts)) :
    ∀ counts, c'.entry ≠ some (k, counts) := by
  intro counts hcounts
  obtain ⟨counts', hsome, -⟩ := h.symm.entry_some hcounts
  exact hc counts' hsome

/-- A call leaves the caches so, and answers the same if it is under the key. -/
theorem perform (h : SameFor key c c') (hcall : Alike key call call') :
    SameFor key (c.perform α call).2 (c'.perform α call').2 ∧
      (call.key = key → (c.perform α call).1 = (c'.perform α call').1) := by
  cases hcall with
  | @release k =>
    rcases c.held_or_not k with ⟨counts, hc⟩ | hc
    · obtain ⟨counts', hc', hcounts⟩ := h.entry_some hc
      rw [release_of_held hc, release_of_held hc']
      exact ⟨.none, fun hk => by rw [hcounts hk]⟩
    · rw [release_of_not_held hc, release_of_not_held (h.not_held hc)]
      exact ⟨.none, fun _ => rfl⟩
  | @acquire k V K flat change change' hchange =>
    rcases c.held_or_not k with ⟨counts, hc⟩ | hc
    · obtain ⟨counts', hc', hcounts⟩ := h.entry_some hc
      rw [acquire_of_held hc, acquire_of_held hc']
      refine ⟨.some ⟨rfl, fun hk => ?_⟩, fun hk => ?_⟩
      · rw [hchange hk, hcounts hk]
      · rw [hcounts hk]
    · rw [acquire_of_not_held hc, acquire_of_not_held (h.not_held hc)]
      cases Counts.ofFlat (α := α) V K flat with
      | error cause => exact ⟨.none, fun _ => rfl⟩
      | ok counts => exact ⟨.some ⟨rfl, fun hk => by rw [hchange hk]⟩, fun _ => rfl⟩

theorem after (h : SameFor key c c') {calls calls' : List Call}
    (hcalls : List.Forall₂ (Alike key) calls calls') :
    SameFor key (after α c calls) (after α c' calls') := by
  induction hcalls generalizing c c' with
  | nil => exact h
  | cons hcall _ ih => exact ih (h.perform hcall).1

end SameFor

/-- How many copies were made before does not matter to the answers. -/
theorem history_congr {c c' : ScanCache} (h : c.entry = c'.entry) :
    ∀ calls : List Call, history α c calls = history α c' calls := by
  intro calls
  induction calls generalizing c c' with
  | nil => rfl
  | cons call calls ih =>
    have hanswer : (c.perform α call).1 = (c'.perform α call).1 :=
      ((SameFor.of_entry_eq h).perform (Alike.refl call.key call)).2 rfl
    have hentry : (c.perform α call).2.entry = (c'.perform α call).2.entry := by
      rw [entry_perform, entry_perform, hanswer]
    rw [history, history, hanswer, ih hentry]

end TopicModel.ScanCache
