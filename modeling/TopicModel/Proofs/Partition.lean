import Mathlib
import TopicModel.Proofs.CacheFree
import TopicModel.Proofs.Sampler
import TopicModel.Proofs.Tally

/-!
# Partitions between operations

`p.Assigned K`: every document of the partition `p` has a state that fits it, over `K` topics, and
the cache is empty. Drawing states establishes it (`init_ok`) and a sweep keeps it whether it
succeeds or fails (`Assigned.sweep`), without touching the documents.

The tally of documents with arbitrary states is decided by `refusal?`: the first document that is
refused ends it (`addPairs_refused`), and otherwise it holds the tokens of all (`addPairs_holds`).
-/

namespace TopicModel

variable {α γ : Type} {K V : Nat}

/-- The tokens of documents, each with the topic that the state of its document gives it. -/
def stateTokens (pairs : List (Document × TopicState)) : List (Nat × Nat) :=
  pairs.flatMap fun (d, s) => d.assigned s.assignment

section
variable {d : Document} {s : TopicState} {pairs : List (Document × TopicState)}

@[simp] theorem stateTokens_nil : stateTokens [] = [] := rfl

theorem stateTokens_cons :
    stateTokens ((d, s) :: pairs) = d.assigned s.assignment ++ stateTokens pairs := rfl

end

/-! ## Scans -/

section
variable [Arithmetic] [Scalar α] [Generator γ]
  {o : Options α} {mode : SampleMode} {sweeps : Nat}

theorem sampleAll_cons_ok {d : Document} {s : TopicState} {rest : List (Document × TopicState)}
    {states : List TopicState} {c c' : Counts} {g g' : γ}
    (h : sampleAll o mode sweeps ((d, s) :: rest) c g = (.ok states, c', g')) :
    ∃ s' states' c₁ g₁, sample o mode sweeps d s c g = (.ok s', c₁, g₁) ∧
      sampleAll o mode sweeps rest c₁ g₁ = (.ok states', c', g') ∧ states = s' :: states' := by
  rw [sampleAll] at h
  split at h
  · cases h
  · rename_i s' c₁ g₁ hone
    split at h
    · cases h
    · rename_i states' c₂ g₂ hrest
      cases h
      exact ⟨s', states', c₁, g₁, hone, hrest, rfl⟩

/-- Resampled documents have states that fit them. -/
theorem sampleAll_fits : ∀ {ds : List Document} {ss states : List TopicState} {c c' : Counts}
    {g g' : γ}, List.Forall₂ (fun d s => s.Fits d K) ds ss →
    sampleAll o mode sweeps (ds.zip ss) c g = (.ok states, c', g') →
    List.Forall₂ (fun d s => s.Fits d K) ds states
  | [], [], _, _, _, _, _, .nil, h => by
    rw [List.zip_nil_left, sampleAll] at h
    cases h
    exact .nil
  | d :: ds, s :: ss, _, _, _, _, _, .cons hs hss, h => by
    obtain ⟨s', states', c₁, g₁, hone, hrest, rfl⟩ := sampleAll_cons_ok h
    exact .cons (sample_fits hs hone) (sampleAll_fits hss hrest)

end

/-! ## Random states -/

section
variable [Generator γ]

theorem below_ok (hK : 0 < K) (g : γ) : ∃ k g', below K g = .ok (k, g') ∧ k < K := by
  have hlt := drawBelow_lt hK redrawLimit g
  rw [below, if_neg hK.ne']
  generalize drawBelow K redrawLimit g = drawn at hlt ⊢
  exact ⟨drawn.1, drawn.2, rfl, hlt⟩

theorem randomTopics_ok (hK : 0 < K) : ∀ (n : Nat) (g : γ),
    ∃ topics g', randomTopics K n g = .ok (topics, g') ∧ topics.length = n ∧ ∀ k ∈ topics, k < K
  | 0, g => ⟨[], g, rfl, rfl, by simp⟩
  | n + 1, g => by
    obtain ⟨k, g₁, hbelow, hk⟩ := below_ok hK g
    obtain ⟨topics, g₂, hrest, hlen, hlt⟩ := randomTopics_ok hK n g₁
    refine ⟨k :: topics, g₂, ?_, congrArg (· + 1) hlen, ?_⟩
    · simp only [randomTopics, hbelow, Outcome.ok_bind, hrest]
      rfl
    · exact List.forall_mem_cons.2 ⟨hk, hlt⟩

theorem drawStates_ok [Arithmetic] (hK : 0 < K) : ∀ (ds : List Document) (g : γ),
    (∀ d ∈ ds, Arithmetic.HasRoom d.tokenCount) →
    ∃ states g', Partition.drawStates K ds g = .ok (states, g') ∧
      List.Forall₂ (fun d s => TopicState.Fits s d K) ds states
  | [], g, _ => ⟨[], g, rfl, .nil⟩
  | d :: ds, g, hroom => by
    obtain ⟨hd, hds⟩ := List.forall_mem_cons.1 hroom
    obtain ⟨topics, g₁, htopics, hlen, hlt⟩ := randomTopics_ok hK d.tokenCount g
    obtain ⟨states, g₂, hrest, hfits⟩ := drawStates_ok hK ds g₁ hds
    refine ⟨⟨histogram K topics, topics⟩ :: states, g₂, ?_, .cons ⟨hd, hlen, hlt, rfl⟩ hfits⟩
    simp only [Partition.drawStates, htopics, Outcome.ok_bind, TopicState.ofAssignment?_eq hlt,
      hrest]
    rfl

end

/-! ## Assigned partitions -/

namespace Partition

variable {p : Partition}

/-- The tokens of the partition with their topics. -/
def tokens (p : Partition) : List (Nat × Nat) := stateTokens p.pairs

/-- Every document has a state that fits it, and no counts are held. -/
structure Assigned [Arithmetic] (p : Partition) (K : Nat) : Prop where
  cache_empty : p.cache.entry = none
  fits : List.Forall₂ (fun d s => s.Fits d K) p.documents p.states

section
variable [Arithmetic] [Generator γ]

/-- A partition whose cache is empty can draw its states. -/
theorem init_ok (hK : 0 < K) (hp : p.cache.entry = none)
    (hroom : ∀ d ∈ p.documents, Arithmetic.HasRoom d.tokenCount) (g : γ) :
    ∃ p' g', p.init K g = .ok (p', g') ∧ p'.documents = p.documents ∧ p'.Assigned K := by
  obtain ⟨states, g', hdraw, hfits⟩ := drawStates_ok hK p.documents g hroom
  refine ⟨{ p with states }, g', ?_, rfl, hp, hfits⟩
  rw [Partition.init, hdraw]
  rfl

variable [Scalar α]

theorem sweep_documents (hp : p.cache.entry = none) (b : Broadcast α) (mode : SampleMode)
    (sweeps : Nat) (g : γ) : (p.sweep b mode sweeps g).2.1.documents = p.documents := by
  rw [sweep_eq_plainSweep hp, plainSweep]
  rcases p.resampled b mode sweeps g with ⟨_ | states, g'⟩ <;> rfl

/-- New states fit the documents. -/
theorem Assigned.resampled {b : Broadcast α} {mode : SampleMode} {sweeps : Nat} {g g' : γ}
    {states : List TopicState} (hp : p.Assigned K)
    (h : p.resampled b mode sweeps g = (.ok states, g')) :
    List.Forall₂ (fun d s => TopicState.Fits s d K) p.documents states := by
  have hlen := hp.fits.length_eq
  unfold Partition.resampled at h
  split at h
  · rename_i hnil
    cases h
    -- there is a state for every document, so that no pair means no document
    have hdocs : p.documents = [] := by
      rcases List.zip_eq_nil_iff.1 hnil with h | h
      · exact h
      · rw [h] at hlen
        exact List.length_eq_zero_iff.1 hlen
    rw [hdocs]
    exact .nil
  · split at h
    · cases h
    · rename_i counts hflat
      obtain ⟨result, c', g₁, hall⟩ : ∃ result c' g₁,
          sampleAll b.options mode sweeps p.pairs counts g = (result, c', g₁) := ⟨_, _, _, rfl⟩
      rw [hall] at h
      obtain ⟨rfl, rfl⟩ := Prod.mk.inj h
      exact sampleAll_fits hp.fits hall

/-- A sweep leaves every document a state that fits it, also when it fails, and whatever model it is
made against: with another number of topics it can only succeed where there is no document. -/
theorem Assigned.sweep (hp : p.Assigned K) (b : Broadcast α) (mode : SampleMode) (sweeps : Nat)
    (g : γ) : (p.sweep b mode sweeps g).2.1.Assigned K := by
  have hcache := plainSweep_cache p b mode sweeps g
  rw [sweep_eq_plainSweep hp.cache_empty]
  refine ⟨hcache, ?_⟩
  unfold plainSweep
  cases h : p.resampled b mode sweeps g with
  | mk result g' =>
    cases result with
    | error e => exact hp.fits
    | ok states => exact hp.resampled h

end

/-! ## Tallies -/

section
variable {o : Options α}

/-- Why a tally refuses a document with its state, if it does. -/
def refusal? (o : Options α) (x : Document × TopicState) : Option (Error α) :=
  match Tally.checkAssignment x.1 x.2.assignment o.vocSize o.topicNum with
  | .error e => some e
  | .ok () => none

theorem refusal?_eq_none {x : Document × TopicState} : refusal? o x = none ↔
    Tally.checkAssignment (α := α) x.1 x.2.assignment o.vocSize o.topicNum = .ok () := by
  unfold refusal?
  split <;> simp [*]

variable [Arithmetic]

/-- The first document that is refused ends the gathering, whatever has been gathered before. -/
theorem addPairs_refused {e : Error α} : ∀ {pairs : List (Document × TopicState)} {t : Tally}
    {xs : List (Nat × Nat)}, t.Holds o.vocSize o.topicNum xs →
    pairs.findSome? (refusal? o) = some e → addPairs o pairs t = .error (.error e)
  | [], _, _, _, h => by cases h
  | (d, s) :: rest, t, xs, ht, h => by
    rw [addPairs]
    rw [List.findSome?_cons] at h
    cases hc : Tally.checkAssignment (α := α) d s.assignment o.vocSize o.topicNum with
    | error e' =>
      rw [show refusal? o (d, s) = some e' by rw [refusal?, hc]] at h
      cases h
      rw [Tally.addDocument, hc]
    | ok u =>
      rw [refusal?_eq_none.2 hc] at h
      obtain ⟨u, hadd, hu⟩ := ht.addDocument hc
      rw [hadd]
      exact addPairs_refused hu h

/-- Without a refusal the documents are gathered, and nothing is left empty but by no document. -/
theorem addPairs_holds : ∀ {pairs : List (Document × TopicState)} {t : Tally}
    {xs : List (Nat × Nat)}, t.Holds o.vocSize o.topicNum xs →
    (∀ x ∈ pairs, refusal? o x = none) →
    ∃ u, addPairs o pairs t = .ok u ∧ u.Holds o.vocSize o.topicNum (xs ++ stateTokens pairs) ∧
      u.isEmpty = (t.isEmpty && pairs.isEmpty)
  | [], t, _, ht, _ => ⟨t, rfl, by simpa using ht, by simp⟩
  | (d, s) :: rest, t, xs, ht, h => by
    obtain ⟨hd, hrest⟩ := List.forall_mem_cons.1 h
    obtain ⟨u, hadd, hu⟩ := ht.addDocument (refusal?_eq_none.1 hd)
    obtain ⟨r, hr, hh, hempty⟩ := addPairs_holds hu hrest
    refine ⟨r, ?_, ?_, ?_⟩
    · rw [addPairs, hadd]
      exact hr
    · rwa [stateTokens_cons, ← List.append_assoc]
    · rw [hempty, Tally.isEmpty_addDocument hadd]
      simp

/-- No document with a state that fits it is refused. -/
theorem Assigned.accepted (hp : p.Assigned o.topicNum)
    (hd : ∀ d ∈ p.documents, d.checkWords (α := α) o.vocSize = .ok ()) :
    ∀ x ∈ p.pairs, refusal? o x = none := by
  rintro ⟨d, s⟩ hx
  have hs := (List.forall₂_iff_zip.1 hp.fits).2 hx
  exact refusal?_eq_none.2
    (Tally.checkAssignment_ok_iff.2 ⟨hd d (List.of_mem_zip hx).1, hs.length_eq, hs.topic_lt⟩)

end

end Partition

end TopicModel
