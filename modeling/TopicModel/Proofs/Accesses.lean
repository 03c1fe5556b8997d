import Mathlib
import TopicModel.Double
import TopicModel.Proofs.Faults
import TopicModel.Tally

/-!
# What is read and written

`sampleAccesses`, `Tally.addAccesses` and `Perplexity.addAccesses` list every access to the topics
and topic counts of a state, to the weights of a token and to counts that sampling, tallying and
scoring a document makes, with the sizes there are at that moment. An access to the entry of a word
is `InBounds` if the word is one of the vocabulary; that the row behind the last word exists, and
holds the totals, does not count. The place of the entry must also lie in the storage that is
computed for the layout.

The lists are complete: whatever the arguments, a computation whose accesses are all in bounds ends
without a fault (`Guards`). And the checks that come first put all accesses in bounds, if the layout
has room (`accesses_inBounds`): a pass keeps all sizes and the topics it draws are indices of the
weights, of which there is one a topic. The checks themselves take lists item by item and access
nothing by position, but they do not look at the storage (`accesses_outOfBounds`).
-/

namespace TopicModel

open Arithmetic (signed)
open Counts (HasRoom)
open Outcome

/-- An access by position to a list of some length, or to an entry or a total of counts. -/
inductive Access where
  | assignment (position length : Nat)
  | topicCount (topic length : Nat)
  | weight (topic length : Nat)
  | entry (word topic : Nat) (counts : Counts)
  | total (topic : Nat) (counts : Counts)

/-- The place of an entry lies in the storage of the layout. -/
def Counts.HasPlace (c : Counts) (word topic : Nat) : Prop :=
  c.index word topic < storage c.vocSize c.topicNum

/-- The place is there, and that of an entry belongs to a word. -/
def Access.InBounds : Access → Prop
  | assignment i length => i < length
  | topicCount topic length => topic < length
  | weight topic length => topic < length
  | entry word topic c => (word < c.vocSize ∧ topic < c.topicNum) ∧ c.HasPlace word topic
  | total topic c => topic < c.topicNum ∧ c.HasPlace c.vocSize topic

namespace Counts

variable {c : Counts} {word topic : Nat}

/-- The accesses to the count of a word with a topic and to the total of the topic. -/
def cellAccesses (c : Counts) (word topic : Nat) : List Access :=
  [.entry word topic c, .total topic c]

theorem lt_of_inBounds (h : ∀ a ∈ c.cellAccesses word topic, a.InBounds) :
    word < c.vocSize ∧ topic < c.topicNum := (h _ List.mem_cons_self).1

theorem storage_eq {vocSize topicNum : Nat} (h : HasRoom vocSize topicNum) :
    storage vocSize topicNum = (vocSize + 1) * topicNum := Nat.mod_eq_of_lt h

/-- With room, every entry of the layout has its place. -/
theorem hasPlace (hroom : HasRoom c.vocSize c.topicNum) (hword : word ≤ c.vocSize)
    (htopic : topic < c.topicNum) : c.HasPlace word topic := by
  rw [HasPlace, storage_eq hroom, index]
  calc word * c.topicNum + topic < (word + 1) * c.topicNum := by rw [Nat.succ_mul]; omega
    _ ≤ (c.vocSize + 1) * c.topicNum := Nat.mul_le_mul_right _ (Nat.succ_le_succ hword)

theorem inBounds_cellAccesses (hroom : HasRoom c.vocSize c.topicNum) (hword : word < c.vocSize)
    (htopic : topic < c.topicNum) : ∀ a ∈ c.cellAccesses word topic, a.InBounds := by
  simp only [cellAccesses, List.forall_mem_cons, Access.InBounds]
  exact ⟨⟨⟨hword, htopic⟩, hasPlace hroom hword.le htopic⟩,
    ⟨htopic, hasPlace hroom (Nat.le_refl _) htopic⟩, List.forall_mem_nil _⟩

end Counts

/-- The computation ends without a fault if the accesses are in bounds. -/
def Guards {α τ : Type} (accesses : List Access) (r : Outcome α τ) : Prop :=
  (∀ a ∈ accesses, a.InBounds) → Faultless r

section
variable {α γ : Type} [Scalar α] [Generator γ] [Arithmetic]

/-! ## Sampling -/

/-- The accesses of `weightsFrom`, each weight written after its counts were read. -/
def weightAccesses (o : Options α) (counts : Counts) (word : Nat) :
    (n topic : Nat) → (topicCounts : List Int) → List Access
  | 0, _, _ => []
  | n + 1, topic, topicCounts =>
    counts.cellAccesses word topic ++
      [.topicCount topic (topic + topicCounts.length), .weight topic (topic + (n + 1))] ++
    match topicCounts, counts.entry? word topic, counts.total? topic with
    | inDocument :: topicCounts, some ofWord, some ofTopic =>
      if ofWord < 0 ∨ ofTopic < 0 ∨ !Scalar.isProper (conditional o inDocument ofWord ofTopic) then
        []
      else weightAccesses o counts word n (topic + 1) topicCounts
    | _, _, _ => []

/-- The accesses of a draw: the weights up to the drawn one. -/
def drawAccesses (new length : Nat) : List Access :=
  (List.range (new + 1)).map fun topic => .weight topic length

/-- The accesses of a move of one token in or out of a topic. -/
def SampleMode.moveAccesses (mode : SampleMode) (topicCounts : List Int) (counts : Counts)
    (word topic : Nat) : List Access :=
  .topicCount topic topicCounts.length ::
    match mode with
    | .train => counts.cellAccesses word topic
    | .frozen => []

/-- The accesses of `resampleToken`. -/
def tokenAccesses (o : Options α) (mode : SampleMode) (word old : Nat) (topicCounts : List Int)
    (counts : Counts) (g : γ) : List Access :=
  mode.moveAccesses topicCounts counts word old ++
    let topicCounts := topicCounts.modify old fun n => signed (n - 1)
    let counts := mode.move counts word old (-1)
    weightAccesses o counts word o.topicNum 0 topicCounts ++
      match topicWeights o counts word o.topicNum topicCounts with
      | (_, .error _) => []
      | (weights, .ok total) =>
        let new := (categorical weights total g).1
        drawAccesses new weights.length ++ mode.moveAccesses topicCounts counts word new

/-- The accesses of `sweepTokens` over the tokens from position `i` on. A topic is written where it
was read. -/
def passAccesses (o : Options α) (mode : SampleMode) :
    (tokens topics : List Nat) → (i : Nat) → (topicCounts : List Int) → Counts → γ → List Access
  | [], _, _, _, _, _ => []
  | _ :: _, [], i, _, _, _ => [.assignment i i]
  | word :: tokens, old :: topics, i, topicCounts, counts, g =>
    .assignment i (i + (topics.length + 1)) ::
      (tokenAccesses o mode word old topicCounts counts g ++
        match resampleToken o mode word old topicCounts counts g with
        | (.error _, _, _) => []
        | (.ok (_, topicCounts), counts, g) =>
          passAccesses o mode tokens topics (i + 1) topicCounts counts g)

/-- The accesses of `sweepDocument`. -/
def documentAccesses (o : Options α) (mode : SampleMode) (tokens : List Nat) :
    (sweeps : Nat) → TopicState → Counts → γ → List Access
  | 0, _, _, _ => []
  | sweeps + 1, s, counts, g =>
    passAccesses o mode tokens s.assignment 0 s.counts counts g ++
      match sweepTokens o mode tokens s.assignment s.counts counts g with
      | (.error _, _, _) => []
      | (.ok (assignment, topicCounts), counts, g) =>
        documentAccesses o mode tokens sweeps ⟨topicCounts, assignment⟩ counts g

/-- The accesses of `sample`, after its checks. -/
def sampleAccesses (o : Options α) (mode : SampleMode) (sweeps : Nat) (d : Document)
    (s : TopicState) (counts : Counts) (g : γ) : List Access :=
  match checkSample o sweeps d s counts with
  | .error _ => []
  | .ok () => if d.isEmpty then [] else documentAccesses o mode d.tokens sweeps s counts g

/-! ### The lists are complete -/

section
variable {o : Options α} {mode : SampleMode} {word old topic : Nat} {tc : List Int}
  {c : Counts} {g : γ}

omit [Arithmetic] in
theorem guards_weightAccesses : ∀ {n topic : Nat} {tc : List Int} {total : α},
    Guards (weightAccesses o c word n topic tc) (weightsFrom o c word n topic tc total).2
  | 0, _, _, _ => fun _ => faultless_ok _
  | n + 1, topic, tc, total => by
    intro h
    unfold weightAccesses at h
    obtain ⟨hfirst, hrest⟩ := List.forall_mem_append.1 h
    obtain ⟨hcell, hlists⟩ := List.forall_mem_append.1 hfirst
    obtain ⟨hword, htopic⟩ := Counts.lt_of_inBounds hcell
    have hcount : topic < topic + tc.length := hlists _ List.mem_cons_self
    obtain ⟨x, tc, rfl⟩ : ∃ x tc', tc = x :: tc' :=
      List.exists_cons_of_length_pos (by omega)
    have hr : c.InRange word topic := ⟨hword.le, htopic⟩
    simp only [weightsFrom, Counts.entry?_eq hr, Counts.total?_eq htopic] at hrest ⊢
    split
    · exact faultless_error _
    · rename_i hgood
      rw [if_neg hgood] at hrest
      exact guards_weightAccesses hrest

omit [Scalar α] [Generator γ] [Arithmetic] in
theorem canMove_of_inBounds (h : ∀ a ∈ mode.moveAccesses tc c word topic, a.InBounds) :
    mode.CanMove tc c word topic := by
  obtain ⟨hcount, hmove⟩ := List.forall_mem_cons.1 h
  refine ⟨hcount, ?_⟩
  rintro rfl
  obtain ⟨hword, htopic⟩ := Counts.lt_of_inBounds hmove
  exact ⟨hword.le, htopic⟩

theorem guards_tokenAccesses :
    Guards (tokenAccesses o mode word old tc c g) (resampleToken o mode word old tc c g).1 := by
  intro h
  simp only [tokenAccesses, List.forall_mem_append] at h
  obtain ⟨hold, hweights, hnew⟩ := h
  have hfaultless : Faultless (topicWeights o (mode.move c word old (-1)) word o.topicNum
      (tc.modify old fun n => signed (n - 1))).2 := guards_weightAccesses hweights
  rw [resampleToken, if_pos (canMove_of_inBounds hold)]
  dsimp only
  generalize topicWeights o (mode.move c word old (-1)) word o.topicNum
    (tc.modify old fun n => signed (n - 1)) = computed at hfaultless hnew ⊢
  obtain ⟨weights, e | total⟩ := computed
  · exact hfaultless.fail
  · dsimp only at hnew ⊢
    rw [List.forall_mem_append] at hnew
    rw [if_pos (canMove_of_inBounds hnew.2)]
    exact faultless_ok _

theorem guards_passAccesses : ∀ {tokens topics : List Nat} {i : Nat} {tc : List Int} {c : Counts}
    {g : γ}, Guards (passAccesses o mode tokens topics i tc c g)
      (sweepTokens o mode tokens topics tc c g).1
  | [], _, _, _, _, _ => fun _ => faultless_ok _
  | _ :: _, [], _, _, _, _ => fun h => absurd (h _ List.mem_cons_self) (Nat.lt_irrefl _)
  | word :: tokens, old :: topics, i, tc, c, g => by
    intro h
    rw [passAccesses, List.forall_mem_cons, List.forall_mem_append] at h
    obtain ⟨-, htoken, hrest⟩ := h
    have hone := guards_tokenAccesses htoken
    rw [sweepTokens]
    generalize resampleToken o mode word old tc c g = one at hone hrest ⊢
    obtain ⟨e | ⟨new, tc₁⟩, c₁, g₁⟩ := one
    · exact hone.fail
    · have hpass := guards_passAccesses hrest
      dsimp only at hpass ⊢
      generalize sweepTokens o mode tokens topics tc₁ c₁ g₁ = swept at hpass ⊢
      obtain ⟨e | ⟨news, tc₂⟩, c₂, g₂⟩ := swept
      · exact hpass.fail
      · exact faultless_ok _

theorem guards_documentAccesses {tokens : List Nat} : ∀ {n : Nat} {s : TopicState} {c : Counts}
    {g : γ}, Guards (documentAccesses o mode tokens n s c g) (sweepDocument o mode tokens n s c g).1
  | 0, _, _, _ => fun _ => faultless_ok _
  | n + 1, s, c, g => by
    intro h
    rw [documentAccesses, List.forall_mem_append] at h
    obtain ⟨hfirst, hrest⟩ := h
    have hpass := guards_passAccesses hfirst
    rw [sweepDocument]
    generalize sweepTokens o mode tokens s.assignment s.counts c g = swept at hpass hrest ⊢
    obtain ⟨e | ⟨news, tc⟩, c₁, g₁⟩ := swept
    · exact hpass.fail
    · exact guards_documentAccesses hrest

theorem guards_sampleAccesses {sweeps : Nat} {d : Document} {s : TopicState} :
    Guards (sampleAccesses o mode sweeps d s c g) (sample o mode sweeps d s c g).1 := by
  intro h
  rw [sampleAccesses] at h
  rw [sample]
  cases hcheck : checkSample o sweeps d s c with
  | error e => exact faultless_error e
  | ok u =>
    rw [hcheck] at h
    by_cases hempty : d.isEmpty = true
    · simp only [hempty, if_true]
      exact faultless_ok _
    · simp only [hempty] at h ⊢
      exact guards_documentAccesses h

/-! ### The checks put them in bounds -/

omit [Generator γ] [Arithmetic] in
theorem inBounds_weightAccesses (hroom : HasRoom c.vocSize c.topicNum) (hword : word < c.vocSize) :
    ∀ {n topic : Nat} {tc : List Int}, tc.length = n → topic + n ≤ c.topicNum →
    ∀ a ∈ weightAccesses o c word n topic tc, a.InBounds
  | 0, _, _, _, _ => List.forall_mem_nil _
  | n + 1, topic, x :: tc, hlen, hK => by
    have htopic : topic < c.topicNum := by omega
    have hr : c.InRange word topic := ⟨hword.le, htopic⟩
    unfold weightAccesses
    rw [List.forall_mem_append, List.forall_mem_append]
    refine ⟨⟨Counts.inBounds_cellAccesses hroom hword htopic, ?_⟩, ?_⟩
    · simp [Access.InBounds]
    · simp only [Counts.entry?_eq hr, Counts.total?_eq htopic]
      split
      · exact List.forall_mem_nil _
      · exact inBounds_weightAccesses hroom hword (Nat.succ.inj hlen) (by omega)

omit [Scalar α] [Generator γ] [Arithmetic] in
theorem inBounds_moveAccesses (hroom : HasRoom c.vocSize c.topicNum) (hword : word < c.vocSize)
    (htopic : topic < c.topicNum) (htc : topic < tc.length) :
    ∀ a ∈ mode.moveAccesses tc c word topic, a.InBounds := by
  refine List.forall_mem_cons.2 ⟨htc, ?_⟩
  cases mode with
  | train => exact Counts.inBounds_cellAccesses hroom hword htopic
  | frozen => exact List.forall_mem_nil _

theorem inBounds_tokenAccesses (hroom : HasRoom o.vocSize o.topicNum) (hword : word < o.vocSize)
    (hV : c.vocSize = o.vocSize)
    (hK : c.topicNum = o.topicNum) (htc : tc.length = o.topicNum) (hold : old < o.topicNum) :
    ∀ a ∈ tokenAccesses o mode word old tc c g, a.InBounds := by
  simp only [tokenAccesses, List.forall_mem_append]
  have hroom' : HasRoom c.vocSize c.topicNum := by rwa [hV, hK]
  refine ⟨inBounds_moveAccesses hroom' (by omega) (by omega) (by omega),
    inBounds_weightAccesses (by rwa [SampleMode.vocSize_move, SampleMode.topicNum_move])
      (by rw [SampleMode.vocSize_move]; omega) (by rw [List.length_modify, htc])
      (by rw [SampleMode.topicNum_move]; omega), ?_⟩
  rcases hweights : topicWeights o (mode.move c word old (-1)) word o.topicNum
    (tc.modify old fun n => signed (n - 1)) with ⟨weights, e | total⟩
  · exact List.forall_mem_nil _
  · -- there is one weight a topic, and the draw is the index of one
    have hlen : weights.length = o.topicNum := length_weightsFrom hweights
    have hnew : (categorical weights total g).1 < weights.length :=
      inverseCdf_lt (List.ne_nil_of_length_pos (by omega))
    dsimp only
    rw [List.forall_mem_append]
    constructor
    · intro a ha
      obtain ⟨k, hk, rfl⟩ := List.mem_map.1 ha
      have hk := List.mem_range.1 hk
      show k < weights.length
      omega
    · exact inBounds_moveAccesses (by rwa [SampleMode.vocSize_move, SampleMode.topicNum_move])
        (by rw [SampleMode.vocSize_move]; omega) (by rw [SampleMode.topicNum_move]; omega)
        (by rw [List.length_modify]; omega)

theorem inBounds_passAccesses (hroom : HasRoom o.vocSize o.topicNum) :
    ∀ {tokens topics : List Nat} {i : Nat} {tc : List Int} {c : Counts} {g : γ},
    tokens.length = topics.length → (∀ w ∈ tokens, w < o.vocSize) →
    (∀ k ∈ topics, k < o.topicNum) → tc.length = o.topicNum → c.vocSize = o.vocSize →
    c.topicNum = o.topicNum → ∀ a ∈ passAccesses o mode tokens topics i tc c g, a.InBounds
  | [], _, _, _, _, _, _, _, _, _, _, _ => List.forall_mem_nil _
  | word :: tokens, old :: topics, i, tc, c, g, hlen, hw, hk, htc, hV, hK => by
    obtain ⟨hword, hw⟩ := List.forall_mem_cons.1 hw
    obtain ⟨hold, hk⟩ := List.forall_mem_cons.1 hk
    rw [passAccesses, List.forall_mem_cons, List.forall_mem_append]
    refine ⟨show i < _ by omega, inBounds_tokenAccesses hroom hword hV hK htc hold, ?_⟩
    rcases hone : resampleToken o mode word old tc c g with ⟨e | ⟨new, tc₁⟩, c₁, g₁⟩
    · exact List.forall_mem_nil _
    · obtain ⟨-, rfl, rfl, -⟩ := resampleToken_ok hone
      exact inBounds_passAccesses hroom (Nat.succ.inj hlen) hw hk (by simpa using htc)
        (by simpa using hV) (by simpa using hK)

theorem inBounds_documentAccesses {tokens : List Nat} (hroom : HasRoom o.vocSize o.topicNum)
    (hw : ∀ w ∈ tokens, w < o.vocSize) :
    ∀ {n : Nat} {s : TopicState} {c : Counts} {g : γ}, tokens.length = s.assignment.length →
    (∀ k ∈ s.assignment, k < o.topicNum) → s.counts.length = o.topicNum →
    c.vocSize = o.vocSize → c.topicNum = o.topicNum →
    ∀ a ∈ documentAccesses o mode tokens n s c g, a.InBounds
  | 0, _, _, _, _, _, _, _, _ => List.forall_mem_nil _
  | n + 1, s, c, g, hlen, hk, htc, hV, hK => by
    rw [documentAccesses, List.forall_mem_append]
    refine ⟨inBounds_passAccesses hroom hlen hw hk htc hV hK, ?_⟩
    rcases hpass : sweepTokens o mode tokens s.assignment s.counts c g with
      ⟨e | ⟨news, tc₁⟩, c₁, g₁⟩
    · exact List.forall_mem_nil _
    · obtain ⟨hnews, hlt⟩ := sweepTokens_topics hlen hpass
      obtain ⟨htc₁, hV₁, hK₁⟩ := sweepTokens_sizes hpass
      exact inBounds_documentAccesses hroom hw (hlen.trans hnews.symm) (htc ▸ hlt) (htc₁.trans htc)
        (hV₁.trans hV) (hK₁.trans hK)

theorem inBounds_sampleAccesses (mode : SampleMode) (sweeps : Nat) (d : Document)
    (s : TopicState) (g : γ) (hroom : HasRoom c.vocSize c.topicNum) :
    ∀ a ∈ sampleAccesses o mode sweeps d s c g, a.InBounds := by
  rw [sampleAccesses]
  cases hcheck : checkSample o sweeps d s c with
  | error e => exact List.forall_mem_nil _
  | ok u =>
    obtain ⟨-, ⟨hV, hK⟩, hwords, hstate⟩ := checkSample_ok_iff.1 hcheck
    obtain ⟨hcounts, hlen, -, -, hk⟩ := TopicState.check_ok_iff.1 hstate
    rw [hV, hK] at hroom
    dsimp only
    split
    · exact List.forall_mem_nil _
    · exact inBounds_documentAccesses hroom (Document.lt_of_mem_tokens hwords)
        ((Document.length_tokens hwords).trans hlen.symm) hk hcounts hV hK

/-- In training the first token is taken out of the counts, whatever their storage. -/
theorem entry_mem_sampleAccesses {sweeps : Nat} {d : Document} {s : TopicState}
    {tokens topics : List Nat} (hcheck : checkSample o (sweeps + 1) d s c = .ok ())
    (hempty : d.isEmpty = false) (htokens : d.tokens = word :: tokens)
    (htopics : s.assignment = old :: topics) :
    .entry word old c ∈ sampleAccesses o .train (sweeps + 1) d s c g := by
  simp [sampleAccesses, hcheck, hempty, htokens, documentAccesses, htopics, passAccesses,
    tokenAccesses, SampleMode.moveAccesses, Counts.cellAccesses]

end

/-! ## Tallying -/

/-- The accesses of `Counts.incrementAll`. -/
def Counts.incrementAccesses (c : Counts) : List (Nat × Nat) → List Access
  | [] => []
  | (word, topic) :: rest =>
    c.cellAccesses word topic ++
      if c.InRange word topic then (c.increment word topic).incrementAccesses rest else []

/-- The accesses of `Tally.addDocument`, after its checks. Words and topics are taken in turn from
the document and from the assignment, neither of them by position. -/
def Tally.addAccesses (α : Type) (t : Tally) (d : Document) (assignment : List Nat)
    (vocSize topicNum : Nat) : List Access :=
  match checkAssignment (α := α) d assignment vocSize topicNum with
  | .error _ => []
  | .ok () =>
    let counts := t.toCounts vocSize topicNum
    if counts.vocSize ≠ vocSize ∨ counts.topicNum ≠ topicNum then []
    else counts.incrementAccesses (d.tokens.zip assignment)

theorem Counts.incrementAll_ok : ∀ {xs : List (Nat × Nat)} {c : Counts},
    (∀ a ∈ c.incrementAccesses xs, a.InBounds) → (c.incrementAll xs).1 = .ok ()
  | [], _, _ => rfl
  | (word, topic) :: xs, c, h => by
    rw [incrementAccesses, List.forall_mem_append] at h
    obtain ⟨hcell, hrest⟩ := h
    obtain ⟨hword, htopic⟩ := lt_of_inBounds hcell
    have hr : c.InRange word topic := ⟨hword.le, htopic⟩
    rw [if_pos hr] at hrest
    rw [incrementAll, if_pos hr]
    exact incrementAll_ok hrest

theorem Counts.inBounds_incrementAccesses : ∀ {xs : List (Nat × Nat)} {c : Counts},
    HasRoom c.vocSize c.topicNum → Within c.vocSize c.topicNum xs →
    ∀ a ∈ c.incrementAccesses xs, a.InBounds
  | [], _, _, _ => List.forall_mem_nil _
  | (word, topic) :: xs, c, hroom, h => by
    obtain ⟨⟨hword, htopic⟩, hxs⟩ := List.forall_mem_cons.1 h
    have hr : c.InRange word topic := ⟨Nat.le_of_lt hword, htopic⟩
    rw [incrementAccesses, if_pos hr, List.forall_mem_append]
    constructor
    · exact inBounds_cellAccesses hroom hword htopic
    · apply inBounds_incrementAccesses
      all_goals rwa [increment, vocSize_addTokens, topicNum_addTokens]

namespace Tally

variable {α : Type} {t : Tally} {d : Document} {assignment : List Nat} {V K : Nat}

theorem guards_addAccesses : Guards (t.addAccesses α d assignment V K)
    (t.addDocument (α := α) d assignment V K).1 := by
  intro h
  rw [addAccesses] at h
  rw [addDocument]
  cases hcheck : checkAssignment (α := α) d assignment V K with
  | error e => exact faultless_error e
  | ok u =>
    rw [hcheck] at h
    dsimp only at h ⊢
    split
    · exact faultless_error _
    · rename_i hshape
      rw [if_neg hshape] at h
      rw [Counts.incrementAll_ok h]
      exact faultless_ok _

theorem inBounds_addAccesses (t : Tally) (d : Document) (assignment : List Nat)
    (hroom : HasRoom V K) : ∀ a ∈ t.addAccesses α d assignment V K, a.InBounds := by
  rw [addAccesses]
  cases hcheck : checkAssignment (α := α) d assignment V K with
  | error e => exact List.forall_mem_nil _
  | ok u =>
    obtain ⟨hwords, -, hk⟩ := checkAssignment_ok_iff.1 hcheck
    dsimp only
    split
    · exact List.forall_mem_nil _
    · rename_i hshape
      have hshape : (t.toCounts V K).vocSize = V ∧ (t.toCounts V K).topicNum = K := by
        simpa [not_or] using hshape
      apply Counts.inBounds_incrementAccesses
      · rwa [hshape.1, hshape.2]
      · rw [hshape.1, hshape.2]
        exact Document.within_assigned hwords hk

end Tally

/-! ## Scoring -/

/-- The accesses of `wordProbability`. The shares of a document's topics are taken in turn. -/
def shareAccesses (o : Options α) (counts : Counts) (word : Nat) :
    (topic : Nat) → (shares : List α) → List Access
  | _, [] => []
  | topic, _ :: shares =>
    counts.cellAccesses word topic ++
    match counts.entry? word topic, counts.total? topic with
    | some ofWord, some ofTopic =>
      if ofWord < 0 ∨ ofTopic < 0 ∨ !Scalar.isProper (wordShare o ofWord ofTopic) then []
      else shareAccesses o counts word (topic + 1) shares
    | _, _ => []

namespace Perplexity

/-- The accesses of `addEntries`. -/
def entryAccesses (o : Options α) (counts : Counts) (shares : List α) :
    List (Nat × Nat) → List Access
  | [] => []
  | (word, _) :: rest =>
    shareAccesses o counts word 0 shares ++
      match wordProbability o counts word 0 shares Scalar.zero with
      | .error _ => []
      | .ok _ => entryAccesses o counts shares rest

/-- The accesses of `addDocument`, after its checks. -/
def addAccesses (o : Options α) (counts : Counts) (d : Document) (s : TopicState) : List Access :=
  match checkSample o 1 d s counts with
  | .error _ => []
  | .ok () =>
    if d.isEmpty then []
    else entryAccesses o counts (topicShares o d.tokenCount s.counts) d.entries

end Perplexity

section
variable {o : Options α} {c : Counts} {word : Nat}

omit [Generator γ] [Arithmetic] in
theorem guards_shareAccesses : ∀ {shares : List α} {topic : Nat} {total : α},
    Guards (shareAccesses o c word topic shares) (wordProbability o c word topic shares total)
  | [], _, _ => fun _ => faultless_ok _
  | share :: shares, topic, total => by
    intro h
    unfold shareAccesses at h
    obtain ⟨hcell, hrest⟩ := List.forall_mem_append.1 h
    obtain ⟨hword, htopic⟩ := Counts.lt_of_inBounds hcell
    have hr : c.InRange word topic := ⟨hword.le, htopic⟩
    simp only [wordProbability, Counts.entry?_eq hr, Counts.total?_eq htopic] at hrest ⊢
    split
    · exact faultless_error _
    · rename_i hgood
      rw [if_neg hgood] at hrest
      exact guards_shareAccesses hrest

omit [Arithmetic] in
theorem inBounds_shareAccesses (hroom : HasRoom c.vocSize c.topicNum) (hword : word < c.vocSize) :
    ∀ {shares : List α} {topic : Nat}, topic + shares.length ≤ c.topicNum →
    ∀ a ∈ shareAccesses o c word topic shares, a.InBounds
  | [], _, _ => List.forall_mem_nil _
  | share :: shares, topic, hK => by
    rw [List.length_cons] at hK
    have htopic : topic < c.topicNum := by omega
    have hr : c.InRange word topic := ⟨hword.le, htopic⟩
    unfold shareAccesses
    rw [List.forall_mem_append]
    constructor
    · exact Counts.inBounds_cellAccesses hroom hword htopic
    · simp only [Counts.entry?_eq hr, Counts.total?_eq htopic]
      split
      · exact List.forall_mem_nil _
      · exact inBounds_shareAccesses hroom hword (by omega)

namespace Perplexity

variable {d : Document} {s : TopicState}

theorem guards_entryAccesses {shares : List α} : ∀ {es : List (Nat × Nat)} {p : Perplexity α},
    Guards (entryAccesses o c shares es) (addEntries o c shares es p).1
  | [], _ => fun _ => faultless_ok _
  | (word, count) :: es, p => by
    intro h
    rw [entryAccesses, List.forall_mem_append] at h
    obtain ⟨hword, hrest⟩ := h
    have hone : Faultless (wordProbability o c word 0 shares Scalar.zero) :=
      guards_shareAccesses hword
    rw [addEntries]
    generalize wordProbability o c word 0 shares Scalar.zero = r at hone hrest ⊢
    cases r with
    | error e => exact hone.fail
    | ok probability => exact guards_entryAccesses hrest

theorem guards_addAccesses {p : Perplexity α} :
    Guards (addAccesses o c d s) (p.addDocument o c d s).1 := by
  intro h
  rw [addAccesses] at h
  rw [addDocument_eq]
  cases hcheck : checkSample o 1 d s c with
  | error e => exact faultless_error e
  | ok u =>
    rw [hcheck] at h
    by_cases hempty : d.isEmpty = true
    · simp only [hempty, if_true]
      exact faultless_ok _
    · simp only [hempty] at h ⊢
      exact guards_entryAccesses h

omit [Arithmetic] in
theorem inBounds_entryAccesses {shares : List α} (hroom : HasRoom c.vocSize c.topicNum)
    (hlen : shares.length ≤ c.topicNum) :
    ∀ {es : List (Nat × Nat)}, (∀ x ∈ es, x.1 < c.vocSize) →
    ∀ a ∈ entryAccesses o c shares es, a.InBounds
  | [], _ => List.forall_mem_nil _
  | (word, count) :: es, hes => by
    obtain ⟨hword, hes⟩ := List.forall_mem_cons.1 hes
    rw [entryAccesses, List.forall_mem_append]
    refine ⟨inBounds_shareAccesses hroom hword (by rwa [Nat.zero_add]), ?_⟩
    split
    · exact List.forall_mem_nil _
    · exact inBounds_entryAccesses hroom hlen hes

theorem inBounds_addAccesses (o : Options α) (d : Document) (s : TopicState)
    (hroom : HasRoom c.vocSize c.topicNum) : ∀ a ∈ addAccesses o c d s, a.InBounds := by
  rw [addAccesses]
  cases hcheck : checkSample o 1 d s c with
  | error e => exact List.forall_mem_nil _
  | ok u =>
    obtain ⟨-, ⟨hV, hK⟩, hwords, hstate⟩ := checkSample_ok_iff.1 hcheck
    have hshares : (topicShares o d.tokenCount s.counts).length ≤ c.topicNum := by
      rw [topicShares, List.length_map, (TopicState.check_ok_iff.1 hstate).1, hK]
    dsimp only
    split
    · exact List.forall_mem_nil _
    · refine inBounds_entryAccesses hroom hshares fun x hx => ?_
      rw [hV]
      exact ((Document.checkWords_ok_iff.1 hwords).2 x hx).1

end Perplexity

end

/-! ## All arguments -/

/-- Whatever the arguments, all accesses of a sample, of a document added to a tally and of one
added to a score are in bounds if the layout has room, those to the entries of a word never in the
row of the totals, and the computation ends without a fault. -/
theorem accesses_inBounds (o : Options α) (mode : SampleMode) (sweeps : Nat) (d : Document)
    (s : TopicState) (c : Counts) (g : γ) (t : Tally) (assignment : List Nat)
    (vocSize topicNum : Nat) (p : Perplexity α) (hc : HasRoom c.vocSize c.topicNum)
    (ht : HasRoom vocSize topicNum) :
    ((∀ a ∈ sampleAccesses o mode sweeps d s c g, a.InBounds) ∧
        Faultless (sample o mode sweeps d s c g).1) ∧
      ((∀ a ∈ t.addAccesses α d assignment vocSize topicNum, a.InBounds) ∧
        Faultless (t.addDocument (α := α) d assignment vocSize topicNum).1) ∧
      (∀ a ∈ Perplexity.addAccesses o c d s, a.InBounds) ∧
        Faultless (p.addDocument o c d s).1 := by
  have hsample : ∀ a ∈ sampleAccesses o mode sweeps d s c g, a.InBounds :=
    inBounds_sampleAccesses mode sweeps d s g hc
  have htally : ∀ a ∈ t.addAccesses α d assignment vocSize topicNum, a.InBounds :=
    Tally.inBounds_addAccesses t d assignment ht
  have hscore := Perplexity.inBounds_addAccesses o d s hc
  exact ⟨⟨hsample, guards_sampleAccesses hsample⟩, ⟨htally, Tally.guards_addAccesses htally⟩,
    hscore, Perplexity.guards_addAccesses hscore⟩

end

/-- One token over two topics is sixteen accesses if it stays in the first: its topic, three to take
it out, eight for the weights, one for the draw and three to put it back in. -/
theorem accesses_inBounds_one_token :
    let o : Options Float := ⟨1, 2, 2, 1⟩
    let d : Document := ⟨0, [0], [1]⟩
    let s : TopicState := ⟨[1, 0], [0]⟩
    let c : Counts := ⟨1, 2, #[1, 0, 1, 0], rfl⟩
    let g : Scripted Xoshiro := ⟨[0], Xoshiro.ofSeed 0⟩
    HasRoom 1 2 ∧ (sampleAccesses o .train 1 d s c g).length = 16 ∧
      ∀ a ∈ sampleAccesses o .train 1 d s c g, a.InBounds := by
  intro o d s c g
  have hroom : HasRoom 1 2 := by decide
  obtain ⟨⟨hsample, -⟩, -⟩ :=
    accesses_inBounds o .train 1 d s c g .empty [0] 1 2 .empty hroom hroom
  exact ⟨hroom, by decide +kernel, hsample⟩

/-- With as many words as 64 bits can count the storage is that of no word at all. The checks pass,
and the first count of the first token is not there. -/
theorem accesses_outOfBounds :
    let o : Options Float := ⟨18446744073709551615, 1, 1, 1⟩
    let d : Document := ⟨0, [0], [1]⟩
    let s : TopicState := ⟨[1], [0]⟩
    let c := Counts.zeros 18446744073709551615 1
    checkSample o 1 d s c = .ok () ∧
      .entry 0 0 c ∈ sampleAccesses o .train 1 d s c (Xoshiro.ofSeed 0) ∧
      ¬ (Access.entry 0 0 c).InBounds := by
  intro o d s c
  have hcheck : checkSample o 1 d s c = .ok () :=
    checkSample_ok_iff.2 ⟨by decide, ⟨rfl, rfl⟩, by decide +kernel, by decide +kernel⟩
  have hstorage : Counts.storage 18446744073709551615 1 = 0 := by decide
  refine ⟨hcheck, entry_mem_sampleAccesses hcheck rfl rfl rfl, fun h => ?_⟩
  have hplace : c.HasPlace 0 0 := h.2
  rw [Counts.HasPlace, show Counts.storage c.vocSize c.topicNum = 0 from hstorage] at hplace
  exact Nat.not_lt_zero _ hplace

end TopicModel
