import TopicModel.Double
import TopicModel.Proofs.Sampler
import TopicModel.Random.Xoshiro

/-!
# Passes in several calls

A document can be resampled in one call with many passes or in several calls with fewer. The passes
themselves go on from each other (`sweepDocument_add`), but every call of `sample` looks at its
input anew. So a second call does what was left to do provided that the first leaves a state that
passes the check again (`sample_add_of_check`), as it does to a state that counts its tokens
(`sample_add`).
-/

namespace TopicModel

section

variable {α γ τ τ' : Type} [Arithmetic] [Scalar α] [Generator γ] {o : Options α}
  {mode : SampleMode} {sweeps m n : Nat} {d : Document} {s s' : TopicState} {c c' : Counts}
  {g g' : γ}

/-- Goes on with the counts and the generator that a computation has left, unless it failed. -/
def Sampled.andThen (r : Sampled α γ τ) (next : τ → Counts → γ → Sampled α γ τ') :
    Sampled α γ τ' :=
  match r with
  | (.error e, c, g) => (.error e, c, g)
  | (.ok x, c, g) => next x c g

/-! ## Passes -/

theorem sweepDocument_add {tokens : List Nat} :
    sweepDocument o mode tokens (m + n) s c g =
      (sweepDocument o mode tokens m s c g).andThen (sweepDocument o mode tokens n) := by
  induction m generalizing s c g with
  | zero =>
    rw [Nat.zero_add]
    rfl
  | succ m ih =>
    rw [Nat.succ_add, sweepDocument, sweepDocument]
    rcases sweepTokens o mode tokens s.assignment s.counts c g with ⟨e | ⟨assignment, tc⟩, c₁, g₁⟩
    · rfl
    · exact ih

/-- Passes leave the dimensions of the counts as they are. -/
theorem sweepDocument_sizes {tokens : List Nat} : ∀ {n : Nat} {s s' : TopicState} {c c' : Counts}
    {g g' : γ}, sweepDocument o mode tokens n s c g = (.ok s', c', g') →
    c'.vocSize = c.vocSize ∧ c'.topicNum = c.topicNum
  | 0, _, _, _, _, _, _, h => by
    rw [sweepDocument] at h
    cases h
    exact ⟨rfl, rfl⟩
  | n + 1, _, _, _, _, _, _, h => by
    obtain ⟨assignment, tc₁, c₁, g₁, hpass, hrest⟩ := sweepDocument_succ_ok h
    obtain ⟨-, hV, hK⟩ := sweepTokens_sizes hpass
    obtain ⟨hV', hK'⟩ := sweepDocument_sizes hrest
    exact ⟨hV'.trans hV, hK'.trans hK⟩

/-! ## Calls -/

omit [Scalar α] in
/-- The checks do not look at the number of passes beyond whether there are any. -/
theorem checkSample_congr (hm : m ≠ 0) (hn : n ≠ 0) :
    checkSample o m d s c = checkSample o n d s c := by
  rw [checkSample, checkSample, if_neg hm, if_neg hn]

/-- What is left of a document passes the checks of another call if its state does. -/
theorem checkSample_left (hn : n ≠ 0) (h : sample o mode sweeps d s c g = (.ok s', c', g'))
    (hstate : s'.check (α := α) d o.topicNum = .ok ()) : checkSample o n d s' c' = .ok () := by
  obtain ⟨hcheck, hcase⟩ := sample_ok h
  obtain ⟨-, ⟨hV, hK⟩, hwords, -⟩ := checkSample_ok_iff.1 hcheck
  have hsizes : c'.vocSize = c.vocSize ∧ c'.topicNum = c.topicNum := by
    rcases hcase with ⟨-, -, rfl, -⟩ | hswept
    · exact ⟨rfl, rfl⟩
    · exact sweepDocument_sizes hswept
  exact checkSample_ok_iff.2 ⟨hn, ⟨hsizes.1.trans hV, hsizes.2.trans hK⟩, hwords, hstate⟩

theorem sample_of_check (hcheck : checkSample o sweeps d s c = .ok ()) :
    sample o mode sweeps d s c g =
      if d.isEmpty then (.ok (.empty o.topicNum), c, g)
      else sweepDocument o mode d.tokens sweeps s c g := by
  rw [sample, hcheck]

/-- A second call does the passes that are left to do if it accepts the state of the first. -/
theorem sample_add_of_check (hm : m ≠ 0) (hn : n ≠ 0)
    (hleft : ∀ s' c' g', sample o mode m d s c g = (.ok s', c', g') →
      s'.check (α := α) d o.topicNum = .ok ()) :
    sample o mode (m + n) d s c g = (sample o mode m d s c g).andThen (sample o mode n d) := by
  have hsum : m + n ≠ 0 := by omega
  have hcongr : checkSample o (m + n) d s c = checkSample o m d s c := checkSample_congr hsum hm
  cases hcheck : checkSample o m d s c with
  | error e =>
    rw [hcheck] at hcongr
    rw [sample, sample, hcheck, hcongr]
    rfl
  | ok u =>
    rw [hcheck] at hcongr
    have hagain : ∀ s' c' g', sample o mode m d s c g = (.ok s', c', g') →
        sample o mode n d s' c' g' = if d.isEmpty then (.ok (.empty o.topicNum), c', g')
          else sweepDocument o mode d.tokens n s' c' g' := fun s' c' g' h =>
      sample_of_check (checkSample_left hn h (hleft s' c' g' h))
    rw [sample_of_check hcheck] at hagain ⊢
    rw [sample_of_check hcongr]
    by_cases hempty : d.isEmpty = true
    · simp only [if_pos hempty] at hagain ⊢
      exact (hagain _ _ _ rfl).symm
    · simp only [if_neg hempty] at hagain ⊢
      rw [sweepDocument_add]
      rcases hfirst : sweepDocument o mode d.tokens m s c g with ⟨e | s', c', g'⟩
      · rfl
      · exact (hagain s' c' g' hfirst).symm

/-- Any number of passes over a document whose state counts its tokens, with room for their number,
can be made in two calls, the second with all that the first has left: both end in the same state or
the same failure, the same counts and the same generator as a single call. -/
theorem sample_add (hs : s.counts = (binCounts s.counts.length s.assignment).map Int.ofNat)
    (hroom : Arithmetic.HasRoom d.tokenCount) (hm : 1 ≤ m) (hn : 1 ≤ n) :
    sample o mode (m + n) d s c g = (sample o mode m d s c g).andThen (sample o mode n d) := by
  refine sample_add_of_check (by omega) (by omega) fun s' c' g' h => ?_
  obtain ⟨-, -, -, hstate⟩ := checkSample_ok_iff.1 (sample_ok h).1
  obtain ⟨hK, hlen, -, -, hlt⟩ := TopicState.check_ok_iff.1 hstate
  have hfits : s.Fits d o.topicNum :=
    ⟨hroom, hlen, hlt, by rwa [hK, binCounts_eq_histogram] at hs⟩
  exact (sample_fits hfits h).check

end

/-- The counts hold one token less than the document has. Its two tokens share a topic and can be
resampled one after the other, but not once more after they were parted: the second pass fails in a
call of its own as it does in a call of both. -/
theorem sample_add_second_pass_fails :
    let o : Options Float := ⟨1, 2, 1, 1⟩
    let d : Document := ⟨0, [0], [2]⟩
    let s : TopicState := ⟨[0, 2], [1, 1]⟩
    let c : Counts := ⟨1, 2, #[0, 1, 0, 2], rfl⟩
    let g : Scripted Xoshiro := ⟨[0xC000000000000000, 0], Xoshiro.ofSeed 7⟩
    ∃ c' g', s.counts = (binCounts 2 s.assignment).map Int.ofNat ∧
      sample o .train 1 d s c g = (.ok ⟨[1, 1], [1, 0]⟩, c', g') ∧
      sample o .train 2 d s c g = sample o .train 1 d ⟨[1, 1], [1, 0]⟩ c' g' ∧
      (sample o .train 2 d s c g).1 = .error (.error (.degenerateWeights 0 1 0)) := by
  intro o d s c g
  have hs : s.counts = (binCounts 2 s.assignment).map Int.ofNat := by decide
  have hfirst : (sample o .train 1 d s c g).1 = .ok ⟨[1, 1], [1, 0]⟩ := by decide +kernel
  have hboth : (sample o .train 2 d s c g).1 = .error (.error (.degenerateWeights 0 1 0)) := by
    decide +kernel
  have hadd : sample o .train (1 + 1) d s c g =
      (sample o .train 1 d s c g).andThen (sample o .train 1 d) :=
    sample_add hs (by decide) (Nat.le_refl 1) (Nat.le_refl 1)
  rcases hone : sample o .train 1 d s c g with ⟨r, c', g'⟩
  rw [hone] at hfirst hadd
  cases hfirst
  exact ⟨c', g', hs, rfl, hadd, hboth⟩

end TopicModel
