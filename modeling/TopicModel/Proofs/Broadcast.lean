import TopicModel.Broadcast

/-!
# The dimensions of the broadcast model

`Broadcast.Made o b`: one of the constructors makes the model `b` for the options `o`. From there it
changes by replacements alone (`Broadcast.replaceAll`). A replacement compares the new counts with
those in place, never with the options (`replace_ok_iff`), so that no sequence of replacements
changes the dimensions (`replaceAll_hasShape`): they are those of the options just if the
constructor made them so (`Made.hasShape_iff`), which `ofTally` alone can fail to do.

`replaceAll_shape` says what this means for the tallies that are accepted, and
`ofTally_other_vocabulary` is a model whose dimensions are not those of its options.
-/

namespace TopicModel

variable {α : Type} {V K : Nat}

/-! ## Shapes -/

/-- The counts have the given dimensions. -/
def Counts.HasShape (c : Counts) (vocSize topicNum : Nat) : Prop :=
  c.vocSize = vocSize ∧ c.topicNum = topicNum

instance (c : Counts) (vocSize topicNum : Nat) : Decidable (c.HasShape vocSize topicNum) :=
  inferInstanceAs (Decidable (_ ∧ _))

theorem Counts.sameShape_iff {c d : Counts} :
    c.sameShape d = true ↔ c.HasShape d.vocSize d.topicNum := by
  simp [sameShape, HasShape]

/-- A tally without counts or with counts of the given dimensions. -/
def Tally.FitsShape (t : Tally) (vocSize topicNum : Nat) : Prop :=
  ∀ c, t.counts = some c → c.HasShape vocSize topicNum

/-- The counts that a tally ends in have the dimensions asked for just if the tally fits them. -/
theorem Tally.hasShape_toCounts {t : Tally} :
    (t.toCounts V K).HasShape V K ↔ t.FitsShape V K := by
  obtain ⟨_ | c⟩ := t <;> simp [toCounts, FitsShape, Counts.HasShape, Counts.zeros]

theorem Counts.checkShape_ok_iff {c : Counts} {o : Options α} :
    c.checkShape o = .ok () ↔ c.HasShape o.vocSize o.topicNum := by
  unfold checkShape HasShape
  split
  · rename_i h
    simp only [reduceCtorEq, false_iff]
    omega
  · rename_i h
    simp only [true_iff]
    omega

namespace Broadcast

variable {o : Options α} {b start : Broadcast α} {t : Tally}

section Replacements

variable [Arithmetic]

/-! ## One replacement -/

/-- The counts of the tally are compared with those in place. -/
theorem replace_ok_iff : (b.replace t).1 = .ok () ↔
    (t.toCounts b.options.vocSize b.options.topicNum).HasShape b.counts.vocSize
      b.counts.topicNum := by
  rw [← Counts.sameShape_iff, replace]
  split <;> simp_all

theorem replace_of_ok (h : (b.replace t).1 = .ok ()) :
    (b.replace t).2 =
      ⟨b.options, t.toCounts b.options.vocSize b.options.topicNum,
        Arithmetic.unsigned 64 (b.iteration + 1)⟩ := by
  unfold replace at h ⊢
  dsimp only at h ⊢
  split at h
  · rename_i hshape
    rw [if_pos hshape]
  · cases h

/-- A replacement that is refused leaves the model as it is. -/
theorem replace_of_error {e : Error α} (h : (b.replace t).1 = .error e) : (b.replace t).2 = b := by
  unfold replace at h ⊢
  dsimp only at h ⊢
  split at h
  · cases h
  · rename_i hshape
    rw [if_neg hshape]

theorem replace_keeps (b : Broadcast α) (t : Tally) :
    (b.replace t).2.options = b.options ∧
      (b.replace t).2.counts.HasShape b.counts.vocSize b.counts.topicNum := by
  cases h : (b.replace t).1 with
  | ok u =>
    rw [replace_of_ok h]
    exact ⟨rfl, replace_ok_iff.1 h⟩
  | error e =>
    rw [replace_of_error h]
    exact ⟨rfl, rfl, rfl⟩

/-! ## Any number of replacements -/

/-- The model after replacements by tallies in order, some of which may be refused. -/
def replaceAll (b : Broadcast α) (ts : List Tally) : Broadcast α :=
  ts.foldl (fun b t => (b.replace t).2) b

theorem replaceAll_options (b : Broadcast α) (ts : List Tally) :
    (b.replaceAll ts).options = b.options := by
  induction ts generalizing b with
  | nil => rfl
  | cons t ts ih => exact (ih _).trans (replace_keeps b t).1

/-- No sequence of replacements changes the dimensions. -/
theorem replaceAll_hasShape (b : Broadcast α) (ts : List Tally) :
    (b.replaceAll ts).counts.HasShape b.counts.vocSize b.counts.topicNum := by
  induction ts generalizing b with
  | nil => exact ⟨rfl, rfl⟩
  | cons t ts ih =>
    have hone := (replace_keeps b t).2
    have hrest := ih (b.replace t).2
    rw [hone.1, hone.2] at hrest
    exact hrest

end Replacements

/-! ## Constructors -/

/-- The model that a constructor makes for given options. -/
inductive Made (o : Options α) : Broadcast α → Prop where
  | zeros : Made o (.zeros o)
  | ofTally (t : Tally) : Made o (.ofTally o t)
  | ofCounts (counts : Counts) (iteration : Nat) {b : Broadcast α} :
      Broadcast.ofCounts o counts iteration = .ok b → Made o b

theorem ofCounts_ok {counts : Counts} {iteration : Nat}
    (h : Broadcast.ofCounts o counts iteration = .ok b) :
    counts.HasShape o.vocSize o.topicNum ∧ b = ⟨o, counts, iteration⟩ := by
  unfold Broadcast.ofCounts at h
  cases hcheck : counts.checkShape o with
  | error e =>
    rw [hcheck] at h
    cases h
  | ok u =>
    rw [hcheck] at h
    cases h
    exact ⟨Counts.checkShape_ok_iff.1 hcheck, rfl⟩

theorem Made.options_eq (h : Made o b) : b.options = o := by
  cases h with
  | zeros => rfl
  | ofTally t => rfl
  | ofCounts counts iteration h => rw [(ofCounts_ok h).2]

/-- A model made from a tally has the dimensions of its options just if the tally fits them, and any
other model has them. -/
theorem Made.hasShape_iff (h : Made o b) : b.counts.HasShape o.vocSize o.topicNum ↔
    ∀ t, b = .ofTally o t → t.FitsShape o.vocSize o.topicNum := by
  constructor
  · rintro hshape t rfl
    exact Tally.hasShape_toCounts.1 hshape
  · intro hfits
    cases h with
    | zeros => exact ⟨rfl, rfl⟩
    | ofTally t => exact Tally.hasShape_toCounts.2 (hfits t rfl)
    | ofCounts counts iteration h =>
      obtain ⟨hshape, rfl⟩ := ofCounts_ok h
      exact hshape

/-! ## Models made and replaced -/

/-- Whatever replacements follow, a model keeps its options and the dimensions that it was made
with. These are the dimensions of the options unless it was made from a tally that does not fit
them, and just then the tallies that fit the options, the empty one among them, are those accepted.
A tally that is refused changes nothing; one that is accepted puts its counts in place of the
others, no tokens if it has gathered none, and completes an iteration. -/
theorem replaceAll_shape [Arithmetic] (h : Made o start) (ts : List Tally) :
    let b := start.replaceAll ts
    b.options = o ∧ b.counts.HasShape start.counts.vocSize start.counts.topicNum ∧
    (b.counts.HasShape o.vocSize o.topicNum ↔
      ∀ t, start = .ofTally o t → t.FitsShape o.vocSize o.topicNum) ∧
    (b.counts.HasShape o.vocSize o.topicNum ↔
      ∀ t, (b.replace t).1 = .ok () ↔ t.FitsShape o.vocSize o.topicNum) ∧
    ∀ t,
      (∀ e, (b.replace t).1 = .error e → (b.replace t).2 = b) ∧
      ((b.replace t).1 = .ok () →
        (b.replace t).2 =
          ⟨o, t.toCounts o.vocSize o.topicNum, Arithmetic.unsigned 64 (b.iteration + 1)⟩) := by
  intro b
  have hoptions : b.options = o := (replaceAll_options start ts).trans h.options_eq
  have hshape : b.counts.HasShape start.counts.vocSize start.counts.topicNum :=
    replaceAll_hasShape start ts
  have hok : ∀ t, (b.replace t).1 = .ok () ↔
      (t.toCounts o.vocSize o.topicNum).HasShape b.counts.vocSize b.counts.topicNum := by
    intro t
    rw [replace_ok_iff, hoptions]
  refine ⟨hoptions, hshape, ?made, ?accepts, fun t => ⟨fun e he => replace_of_error he, ?_⟩⟩
  case made =>
    rw [← h.hasShape_iff, Counts.HasShape, hshape.1, hshape.2, Counts.HasShape]
  case accepts =>
    constructor
    · intro hproper t
      rw [hok, hproper.1, hproper.2, Tally.hasShape_toCounts]
    · intro haccepts
      -- the empty tally fits any options, and its counts have their dimensions
      have hempty := (hok .empty).1 ((haccepts .empty).2 fun c hc => by cases hc)
      exact ⟨hempty.1.symm, hempty.2.symm⟩
  · intro ht
    rw [replace_of_ok ht, hoptions]

/-- A model of given counts after the counts of another vocabulary, which are refused, and after no
counts, which are accepted. -/
theorem replaceAll_shape_two_tallies :
    let o : Options Float := ⟨3, 2, 0.1, 0.1⟩
    let start : Broadcast Float := ⟨o, ⟨3, 2, #[2, 0, 1, 1, 0, 3, 3, 4], rfl⟩, 5⟩
    let b := start.replaceAll [⟨some (.zeros 4 2)⟩, .empty]
    Made o start ∧ b.counts.HasShape 3 2 ∧
      ((b.replace ⟨some (.zeros 4 2)⟩).1 = .ok () ↔
        Tally.FitsShape ⟨some (.zeros 4 2)⟩ 3 2) ∧
      b = ⟨o, .zeros 3 2, 6⟩ := by
  intro o start b
  have hmade : Made o start := .ofCounts ⟨3, 2, #[2, 0, 1, 1, 0, 3, 3, 4], rfl⟩ 5 rfl
  obtain ⟨-, hshape, -, haccepts, -⟩ :=
    replaceAll_shape hmade [⟨some (.zeros 4 2)⟩, .empty]
  exact ⟨hmade, hshape, haccepts.1 hshape _, rfl⟩

/-- A model made from the counts of another vocabulary. It is not of the dimensions of its options,
refuses the tallies that are, and reports that their eight entries are not the eight expected. -/
theorem ofTally_other_vocabulary :
    let o : Options Float := ⟨3, 2, 0.1, 0.1⟩
    let b : Broadcast Float := .ofTally o ⟨some (.zeros 4 2)⟩
    Made o b ∧ ¬ b.counts.HasShape 3 2 ∧
      b.replace .empty = (.error (.modelShape 3 2 8 8), b) ∧
      b.replace ⟨some (.zeros 3 2)⟩ = (.error (.modelShape 3 2 8 8), b) ∧
      (b.replace ⟨some (.zeros 4 2)⟩).1 = .ok () := by
  intro o b
  refine ⟨.ofTally _, ?_, rfl, rfl, rfl⟩
  rintro ⟨hvoc, -⟩
  cases hvoc

end Broadcast

end TopicModel
