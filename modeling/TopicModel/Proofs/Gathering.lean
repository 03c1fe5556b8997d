import Mathlib
import TopicModel.Proofs.Tally

/-!
# Gathering counts in any order

A `Gathering` is a way to gather the counts of documents with their assignments: documents are added
one by one onto what is already gathered, and gathered tallies are merged, added or summed, in any
order and bracketing, with tallies of nothing mixed in anywhere. `Gathering.run` performs it with
the operations of `Tally`.

`gathering_order_irrelevant`: two gatherings of the same documents, however these are distributed
over parts, succeed and end in the same counts, those of the documents' tokens.
-/

namespace TopicModel

/-- A way to gather the counts of documents with their assignments. -/
inductive Gathering where
  | nothing
  /-- A document added onto what was gathered before. -/
  | document (before : Gathering) (d : Document) (assignment : List Nat)
  /-- Two tallies merged, the shapes being compared. -/
  | merge (left right : Gathering)
  /-- Two tallies added. -/
  | add (left right : Gathering)
  /-- The sum of several tallies. -/
  | sum (parts : List Gathering)

namespace Gathering

variable {α : Type} {V K : Nat}

mutual

/-- The documents that are gathered, with their assignments. -/
def documents : Gathering → List (Document × List Nat)
  | nothing => []
  | document before d assignment => before.documents ++ [(d, assignment)]
  | merge left right => left.documents ++ right.documents
  | add left right => left.documents ++ right.documents
  | sum parts => documentsAll parts

/-- The documents of several gatherings. -/
def documentsAll : List Gathering → List (Document × List Nat)
  | [] => []
  | part :: parts => part.documents ++ documentsAll parts

end

mutual

/-- The tally that a gathering over `vocSize` words and `topicNum` topics ends in. -/
def run [Arithmetic] (vocSize topicNum : Nat) : Gathering → Outcome α Tally
  | nothing => .ok .empty
  | document before d assignment => do
    let t ← before.run vocSize topicNum
    match t.addDocument d assignment vocSize topicNum with
    | (.ok (), t) => .ok t
    | (.error e, _) => .error e
  | merge left right => do
    let t ← left.run vocSize topicNum
    let u ← right.run vocSize topicNum
    match t.merge u with
    | (.ok (), t) => .ok t
    | (.error e, _) => .error (.error e)
  | add left right => do
    let t ← left.run vocSize topicNum
    let u ← right.run vocSize topicNum
    Outcome.ofFault (t.add? u)
  | sum parts => do
    let ts ← runAll vocSize topicNum parts
    Outcome.ofFault (Tally.sum? ts)

/-- The tallies of several gatherings. -/
def runAll [Arithmetic] (vocSize topicNum : Nat) : List Gathering → Outcome α (List Tally)
  | [] => .ok []
  | part :: parts => do
    let t ← part.run vocSize topicNum
    let ts ← runAll vocSize topicNum parts
    return t :: ts

end

/-- The documents gathered one after the other onto a single tally. -/
def sequential (pairs : List (Document × List Nat)) : Gathering :=
  pairs.foldl (fun g x => document g x.1 x.2) nothing

theorem documents_sequential (pairs : List (Document × List Nat)) :
    (sequential pairs).documents = pairs := by
  have key : ∀ (pairs : List (Document × List Nat)) (g : Gathering),
      (pairs.foldl (fun g x => document g x.1 x.2) g).documents = g.documents ++ pairs := by
    intro pairs
    induction pairs with
    | nil => intro g; exact (List.append_nil _).symm
    | cons x pairs ih =>
      intro g
      rw [List.foldl_cons, ih, documents, List.append_assoc]
      rfl
  exact key pairs nothing

/-- A pair of a document and an assignment that can be gathered. -/
def Accepted (α : Type) (V K : Nat) (x : Document × List Nat) : Prop :=
  Tally.checkAssignment (α := α) x.1 x.2 V K = .ok ()

mutual

/-- A gathering of accepted documents ends in a tally of their tokens. -/
theorem run_holds [Arithmetic] : ∀ g : Gathering, (∀ x ∈ g.documents, Accepted α V K x) →
    ∃ t, g.run (α := α) V K = .ok t ∧ t.Holds V K (assignedTokens g.documents)
  | nothing, _ => ⟨.empty, rfl, rfl⟩
  | document before d assignment, h => by
    rw [documents] at h
    obtain ⟨t, ht, hh⟩ := run_holds before fun x hx => h x (List.mem_append_left _ hx)
    have hd : Accepted α V K (d, assignment) := h _ (List.mem_append_right _ List.mem_cons_self)
    obtain ⟨u, hu, hh⟩ := hh.addDocument hd
    refine ⟨u, ?_, ?_⟩
    · rw [run, ht]
      simp only [Outcome.ok_bind, hu]
    · rwa [documents, assignedTokens, List.flatMap_append, List.flatMap_singleton]
  | merge left right, h => by
    rw [documents] at h
    obtain ⟨t, ht, hl⟩ := run_holds left fun x hx => h x (List.mem_append_left _ hx)
    obtain ⟨u, hu, hr⟩ := run_holds right fun x hx => h x (List.mem_append_right _ hx)
    obtain ⟨r, hm, hh⟩ := hl.merge (α := α) hr
    refine ⟨r, ?_, ?_⟩
    · rw [run, ht, hu]
      simp only [Outcome.ok_bind, hm]
    · rwa [documents, assignedTokens, List.flatMap_append]
  | add left right, h => by
    rw [documents] at h
    obtain ⟨t, ht, hl⟩ := run_holds left fun x hx => h x (List.mem_append_left _ hx)
    obtain ⟨u, hu, hr⟩ := run_holds right fun x hx => h x (List.mem_append_right _ hx)
    obtain ⟨r, ha, hh⟩ := hl.add? hr
    refine ⟨r, ?_, ?_⟩
    · rw [run, ht, hu]
      simp only [Outcome.ok_bind, ha, Outcome.ofFault_ok]
    · rwa [documents, assignedTokens, List.flatMap_append]
  | sum parts, h => by
    rw [documents] at h
    obtain ⟨ts, yss, hts, hall, htok⟩ := runAll_holds parts h
    obtain ⟨r, hr, hh⟩ := Tally.Holds.sum? hall
    refine ⟨r, ?_, ?_⟩
    · rw [run, hts]
      simp only [Outcome.ok_bind, hr, Outcome.ofFault_ok]
    · rwa [documents, ← htok]

theorem runAll_holds [Arithmetic] : ∀ gs : List Gathering,
    (∀ x ∈ documentsAll gs, Accepted α V K x) →
    ∃ ts yss, runAll (α := α) V K gs = .ok ts ∧
      List.Forall₂ (fun t ys => Tally.Holds t V K ys) ts yss ∧
      yss.flatten = assignedTokens (documentsAll gs)
  | [], _ => ⟨[], [], rfl, .nil, rfl⟩
  | g :: gs, h => by
    rw [documentsAll] at h
    obtain ⟨t, ht, hh⟩ := run_holds g fun x hx => h x (List.mem_append_left _ hx)
    obtain ⟨ts, yss, hts, hall, htok⟩ :=
      runAll_holds gs fun x hx => h x (List.mem_append_right _ hx)
    refine ⟨t :: ts, assignedTokens g.documents :: yss, ?_, .cons hh hall, ?_⟩
    · rw [runAll, ht, hts]; rfl
    · rw [List.flatten_cons, htok, documentsAll, assignedTokens, assignedTokens, assignedTokens,
        List.flatMap_append]

end

/-- Documents that are each accepted by the empty tally can be gathered in parts of any content, in
any order within a part, and the parts merged in any order and bracketing: nothing fails, and the
counts are those of the documents' tokens, which are also those of gathering one document after the
other. -/
theorem gathering_order_irrelevant [Arithmetic] (vocSize topicNum : Nat)
    (pairs : List (Document × List Nat)) (haccepted : ∀ x ∈ pairs,
      (Tally.empty.addDocument (α := α) x.1 x.2 vocSize topicNum).1 = .ok ())
    (g : Gathering) (hg : g.documents.Perm pairs) :
    ∃ t u, g.run (α := α) vocSize topicNum = .ok t ∧
      (sequential pairs).run (α := α) vocSize topicNum = .ok u ∧
      t.toCounts vocSize topicNum = u.toCounts vocSize topicNum ∧
      (t.toCounts vocSize topicNum).Tallies vocSize topicNum (assignedTokens pairs) := by
  have hacc : ∀ x ∈ pairs, Accepted α vocSize topicNum x := fun x hx =>
    Tally.checkAssignment_of_addDocument (haccepted x hx)
  obtain ⟨t, ht, hh⟩ := run_holds g fun x hx => hacc x (hg.mem_iff.1 hx)
  obtain ⟨u, hu, hs⟩ := run_holds (sequential pairs) fun x hx =>
    hacc x (by rwa [documents_sequential] at hx)
  have htok : (assignedTokens g.documents).Perm (assignedTokens pairs) := hg.flatMap_right _
  rw [documents_sequential] at hs
  have hcounts := (hh.perm htok).toCounts
  exact ⟨t, u, ht, hu, hcounts.unique hs.toCounts, hcounts⟩

/-- Three documents in three parts, one of them empty, merged from the right. -/
theorem gathering_three_documents :
    ∃ t u,
      (merge (document nothing ⟨2, [1], [2]⟩ [1, 1])
        (sum [nothing, document (document nothing ⟨1, [], []⟩ []) ⟨0, [0, 1], [2, 1]⟩ [0, 1, 0],
          nothing])).run (α := Unit) 2 2 = .ok t ∧
      (sequential [(⟨0, [0, 1], [2, 1]⟩, [0, 1, 0]), (⟨1, [], []⟩, []),
        (⟨2, [1], [2]⟩, [1, 1])]).run (α := Unit) 2 2 = .ok u ∧
      t.toCounts 2 2 = u.toCounts 2 2 ∧
      (t.toCounts 2 2).Tallies 2 2 (assignedTokens [(⟨0, [0, 1], [2, 1]⟩, [0, 1, 0]),
        (⟨1, [], []⟩, []), (⟨2, [1], [2]⟩, [1, 1])]) :=
  gathering_order_irrelevant 2 2 _ (by decide) _ (by decide)

end Gathering

end TopicModel
