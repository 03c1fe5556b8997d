import Mathlib
import TopicModel.SavedModel

/-!
# Restored models

Of a saved form whose layout has room, `SavedModel.restore` makes the model that it stands for
(`restore_of_room`). Where the number of counts has wrapped around, it accepts a form of a few
counts as well, and then there is no model (`restore_ok_iff`).
-/

namespace TopicModel

open Counts (HasRoom storage)

variable {α : Type} [Scalar α]

namespace SavedModel

variable {s : SavedModel α} {m : Model α} {r : Restored α}

theorem restore_of_room (h : HasRoom s.vocSize s.topicNum) :
    s.restore = (Model.ofSaved s).map .model := if_pos h

theorem restore_hollow (h : ¬ HasRoom s.vocSize s.topicNum) (hoptions : s.options.check = .ok ())
    (hlength : s.flat.length = storage s.vocSize s.topicNum) : s.restore = .ok (.hollow s) := by
  rw [restore, if_neg h, hoptions]
  exact if_pos hlength

theorem restore_ok_iff : s.restore = .ok r ↔
    (HasRoom s.vocSize s.topicNum ∧ ∃ m, Model.ofSaved s = .ok m ∧ r = .model m) ∨
      (¬ HasRoom s.vocSize s.topicNum ∧ s.options.check = .ok () ∧
        s.flat.length = storage s.vocSize s.topicNum ∧ r = .hollow s) := by
  by_cases hroom : HasRoom s.vocSize s.topicNum
  · rw [restore_of_room hroom]
    cases Model.ofSaved s <;> simp [Except.map, hroom, eq_comm]
  · rw [restore, if_neg hroom]
    cases s.options.check with
    | error e => simp [hroom, bind, Except.bind]
    | ok u =>
      by_cases hlength : s.flat.length = storage s.vocSize s.topicNum
      · simp [hroom, hlength, bind, Except.bind, pure, Except.pure, eq_comm]
      · simp [hroom, hlength, bind, Except.bind, throw, throwThe, MonadExceptOf.throw]

end SavedModel

namespace Restored

variable {s : SavedModel α}

def options : Restored α → Options α
  | .model m => m.options
  | .hollow s => s.options

/-- A hollow model has no topic for a token. -/
theorem predict_hollow [Arithmetic] {processors : Nat} {ds : List Document} {f : FitOptions α}
    (hf : f.check = .ok ()) (hds : Model.checkDocuments s.options ds = .ok ())
    (htokens : ∃ d ∈ ds, d.isEmpty = false) :
    (Restored.hollow s).predict processors ds f = .error (.fault .indexOutOfRange) := by
  have hall : ds.all Document.isEmpty = false := by simpa using htokens
  rw [predict, hf, hds, hall]
  rfl

end Restored

end TopicModel
