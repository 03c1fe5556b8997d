import Mathlib
import TopicModel.Command.Run
import TopicModel.Proofs.Broadcast
import TopicModel.Proofs.JsonDoubles
import TopicModel.Proofs.JsonRecords
import TopicModel.Proofs.ModelBinary
import TopicModel.Proofs.Restored
import TopicModel.Proofs.Training

/-!
# Models saved and read again

An exchange form is a model just if it is valid (`Model.ofSaved_ok_iff`), and the model is saved as
the form that it was made of (`SavedModel.Valid.save_model`). Neither looks at the counts. The valid
forms are those that are restored, as long as the number of counts can be counted.

Written to a file, the form is read again as it was. The binary words hold the bits of the two
concentrations; as JSON only the concentrations can come back changed
(`SavedModel.parseJson?_written`), so that such a file is exact just if their texts read back
(`SavedModel.decode_encode_iff`). The path alone decides on the form of the file, for the writer and
for the reader. Of the files themselves nothing is used but that what was saved at a path is found
there (`LawfulHost`).
-/

namespace TopicModel

open Counts (HasRoom)
open Json (Value)

/-! ## Exchange forms -/

section Restoring

variable {α : Type} [Scalar α] {s : SavedModel α} {m : Model α}

/-- An exchange form that is a model: proper concentrations, dimensions other than zero, and as
many counts as these ask for. -/
structure SavedModel.Valid (s : SavedModel α) : Prop where
  alpha : Scalar.isProper s.alpha = true
  beta : Scalar.isProper s.beta = true
  vocSize : 0 < s.vocSize
  topicNum : 0 < s.topicNum
  length : s.flat.length = (s.vocSize + 1) * s.topicNum

/-- The model of a valid form, without a history. -/
def SavedModel.Valid.model (h : s.Valid) : Model α :=
  ⟨s.options, some ⟨s.options, ⟨s.vocSize, s.topicNum, s.flat.toArray, h.length⟩, s.iterations⟩, []⟩

/-- The model is saved as the form that it was made of. -/
theorem SavedModel.Valid.save_model (h : s.Valid) : h.model.save = .ok s := rfl

namespace Model

/-- Just the valid forms are models. -/
theorem ofSaved_ok_iff : ofSaved s = .ok m ↔ ∃ h : s.Valid, h.model = m := by
  constructor
  · intro hm
    simp only [ofSaved, Outcome.bind_eq_ok_iff] at hm
    obtain ⟨_, hcheck, counts, hcounts, b, hb, hm⟩ := hm
    obtain ⟨halpha, hbeta, hvoc, htopic⟩ := check_ok_iff.1 hcheck
    obtain ⟨-, rfl⟩ := Broadcast.ofCounts_ok hb
    unfold Counts.ofFlat at hcounts
    split at hcounts
    · rename_i hsize
      cases hcounts
      cases hm
      exact ⟨⟨halpha, hbeta, hvoc, htopic, hsize⟩, rfl⟩
    · cases hcounts
  · rintro ⟨h, rfl⟩
    have hoptions : s.options.check = .ok () :=
      check_ok_iff.2 ⟨h.alpha, h.beta, h.vocSize, h.topicNum⟩
    have hcounts : Counts.ofFlat (α := α) s.vocSize s.topicNum s.flat.toArray =
        .ok ⟨s.vocSize, s.topicNum, s.flat.toArray, h.length⟩ := dif_pos h.length
    have hshape : Counts.checkShape ⟨s.vocSize, s.topicNum, s.flat.toArray, h.length⟩ s.options =
        .ok () := Counts.checkShape_ok_iff.2 ⟨rfl, rfl⟩
    simp only [ofSaved, Outcome.bind_eq_ok_iff]
    refine ⟨(), hoptions, _, hcounts, ⟨s.options, _, s.iterations⟩, ?_, rfl⟩
    unfold Broadcast.ofCounts
    rw [hshape]
    rfl

end Model

end Restoring

/-! ## Models as JSON -/

namespace SavedModel

variable {s : SavedModel Float} {l : Json.Layout}

/-- The members of the model as they are written. -/
def fields (s : SavedModel Float) : List (String × Value) := [
  ("voc_size", .ofNat s.vocSize),
  ("topic_num", .ofNat s.topicNum),
  ("alpha", .ofFloat s.alpha),
  ("beta", .ofFloat s.beta),
  ("iter_num", .ofNat s.iterations),
  ("model", .ofInts s.flat)]

theorem toJson_eq (s : SavedModel Float) : s.toJson = .record s.fields := rfl

theorem nodup_fields (s : SavedModel Float) : (s.fields.map Prod.fst).Nodup := by
  have hnames : s.fields.map Prod.fst =
      ["voc_size", "topic_num", "alpha", "beta", "iter_num", "model"] := rfl
  rw [hnames]
  decide

theorem plain_toJson (s : SavedModel Float) : s.toJson.Plain := by
  apply Value.plain_record
  simp only [List.forall_mem_cons]
  exact ⟨⟨by decide, Value.plain_ofInt _⟩, ⟨by decide, Value.plain_ofInt _⟩,
    ⟨by decide, Value.plain_ofFloat _⟩, ⟨by decide, Value.plain_ofFloat _⟩,
    ⟨by decide, Value.plain_ofInt _⟩, ⟨by decide, Value.plain_ofInts _⟩, List.forall_mem_nil _⟩

theorem ofMembers?_eq {ms : List (Bytes × Value)}
    {vocSize topicNum alpha beta iterations flat : Value}
    (hvoc : Value.member? "voc_size" ms = some vocSize)
    (htopic : Value.member? "topic_num" ms = some topicNum)
    (halpha : Value.member? "alpha" ms = some alpha)
    (hbeta : Value.member? "beta" ms = some beta)
    (hiterations : Value.member? "iter_num" ms = some iterations)
    (hflat : Value.member? "model" ms = some flat) :
    ofMembers? ms = ofValues? vocSize topicNum alpha beta iterations flat := by
  rw [ofMembers?, hvoc, htopic, halpha, hbeta, hiterations, hflat]
  rfl

/-- The members are found by their names. -/
theorem ofMembers?_fields (s : SavedModel Float) : ofMembers? (Value.byName s.fields) =
    ofValues? (.ofNat s.vocSize) (.ofNat s.topicNum) (.ofFloat s.alpha) (.ofFloat s.beta)
      (.ofNat s.iterations) (.ofInts s.flat) := by
  have hfound : ∀ {name : String} {v : Value}, (name, v) ∈ s.fields →
      Value.member? name (Value.byName s.fields) = some v := Value.member?_byName s.nodup_fields
  apply ofMembers?_eq
  all_goals
    apply hfound
    simp [fields]

/-- All values are in range, and the concentrations are what their literals are read as. -/
theorem ofJson?_toJson (h : s.InRange) : ofJson? s.toJson =
    (Value.ofFloat s.alpha).double?.bind fun alpha =>
      (Value.ofFloat s.beta).double?.map fun beta => { s with alpha, beta } := by
  rw [toJson_eq, Value.record, ofJson?, Value.named?_record, Option.bind_some, ofMembers?_fields,
    ofValues?, Value.natural?_ofNat h.vocSize, Value.natural?_ofNat h.topicNum,
    Value.natural?_ofNat h.iterations, Value.list?_ofInts h.flat]
  cases (Value.ofFloat s.alpha).double? with
  | none => rfl
  | some alpha => cases (Value.ofFloat s.beta).double? <;> rfl

/-- The text of a model is that of its object. -/
theorem valueParse?_written (hl : l.Blank) (s : SavedModel Float) :
    Value.parse? (s.writtenJson l) = some s.toJson := Value.parse?_written hl 0 s.plain_toJson

/-- A model that is written as JSON is read again, all but its concentrations. -/
theorem parseJson?_written (h : s.InRange) (hl : l.Blank) : parseJson? (s.writtenJson l) =
    (Value.ofFloat s.alpha).double?.bind fun alpha =>
      (Value.ofFloat s.beta).double?.map fun beta => { s with alpha, beta } := by
  rw [parseJson?, valueParse?_written hl, Option.bind_some, ofJson?_toJson h]

theorem parseJson?_written_eq_some_iff (h : s.InRange) (hl : l.Blank) :
    parseJson? (s.writtenJson l) = some s ↔ Value.ReadsBack s.alpha ∧ Value.ReadsBack s.beta := by
  rw [parseJson?_written h hl]
  simp only [Option.bind_eq_some_iff, Option.map_eq_some_iff]
  constructor
  · rintro ⟨alpha, halpha, beta, hbeta, hs⟩
    have hx : alpha = s.alpha := congrArg SavedModel.alpha hs
    have hy : beta = s.beta := congrArg SavedModel.beta hs
    subst hx hy
    exact ⟨halpha, hbeta⟩
  · rintro ⟨halpha, hbeta⟩
    exact ⟨s.alpha, halpha, s.beta, hbeta, rfl⟩

/-! ## Model files -/

theorem decode_ok_iff {path : String} {bytes : Bytes} : decode path bytes = .ok s ↔
    (if isJsonPath path then parseJson? bytes else parseBinary? bytes) = some s := by
  unfold decode
  cases (if isJsonPath path then parseJson? bytes else parseBinary? bytes) <;> simp

/-- A model file is read again as it was, one of JSON just if both concentrations read back. -/
theorem decode_encode_iff (h : s.InRange) (path : String) : decode path (s.encode path) = .ok s ↔
    (isJsonPath path = true → Value.ReadsBack s.alpha ∧ Value.ReadsBack s.beta) := by
  rw [decode_ok_iff, encode]
  by_cases hpath : isJsonPath path = true
  · simp only [hpath, if_true, true_imp_iff]
    exact parseJson?_written_eq_some_iff h Json.Layout.blank_indented
  · have hbinary : parseBinary? (s.writtenBinary ++ []) = some s := parseBinary?_append h
    rw [List.append_nil] at hbinary
    simpa [hpath] using hbinary

end SavedModel

/-! ## Files -/

/-- A host that finds at a path what was saved there last. -/
class LawfulHost (m : Type → Type) [Monad m] [Host m] : Prop extends LawfulMonad m where
  load_save : ∀ (path : String) (content : Bytes),
    (do if ← Host.save path content then return some (← Host.load path) else return none) =
      (do if ← Host.save path content then return some (.file content) else return none :
        m (Option Found))

theorem Directory.load_save {d d' : Directory} {path : String} {content : Bytes}
    (h : d.save path content = (true, d')) : d'.load path = .file content := by
  unfold save at h
  split at h
  · rename_i name htarget
    cases h
    have hget : (d.put name content).get? name = some content := List.lookup_cons_self
    simp only [load, htarget, hget]
  · cases h

/-- What is saved in a directory is found in it. -/
instance : LawfulHost (StateM Directory) where
  load_save path content := by
    funext d
    have hhost : (Host.save path content : StateM Directory Bool) d = d.save path content := rfl
    simp only [bind, StateT.bind, hhost]
    rcases hsave : d.save path content with ⟨_ | _, d'⟩
    · rfl
    · exact congrArg (fun found => (some found, d')) (Directory.load_save hsave)

namespace Command

variable {m : Type → Type} [Monad m] [Host m] [LawfulHost m] {s : SavedModel Float} {path : String}

omit [Host m] [LawfulHost m] in
/-- An action of the host is one step. -/
theorem run_lift_bind [LawfulMonad m] {σ τ : Type} (action : m σ) (next : σ → Step m τ) :
    (ExceptT.lift action >>= next).run = action >>= fun x => (next x).run := by
  rw [ExceptT.run_bind, ExceptT.run_lift, map_eq_pure_bind, bind_assoc]
  exact bind_congr fun x => pure_bind _ _

theorem run_writeFile_bind {τ : Type} (path : String) (content : Bytes) (next : Step m τ) :
    (do writeFile path content; next : Step m τ).run = Host.save path content >>= fun saved =>
      if saved then next.run else pure (.error (.file path)) := by
  rw [writeFile, bind_assoc]
  refine (run_lift_bind _ _).trans (bind_congr fun saved => ?_)
  cases saved <;> simp

/-- After a file was written, what is found at its path is its content. -/
theorem load_writeFile {τ : Type} (path : String) (content : Bytes) (next : Found → Step m τ) :
    (do writeFile path content; next (← Host.load path)) =
      (do writeFile path content; next (.file content)) := by
  have hlaw := congrArg (· >>= fun found : Option Found =>
    match found with
    | some found => (next found).run
    | none => pure (.error (.file path))) (LawfulHost.load_save (m := m) path content)
  simp only [bind_assoc] at hlaw
  apply ExceptT.ext
  rw [run_writeFile_bind, run_writeFile_bind]
  -- the law with the next step behind it, once the step is run where the file is loaded
  refine Eq.trans (bind_congr fun saved => ?_) (hlaw.trans (bind_congr fun saved => ?_))
  · cases saved
    · simp
    · rw [if_pos rfl, if_pos rfl, bind_assoc]
      refine (run_lift_bind _ _).trans (bind_congr fun found => ?_)
      simp
  · cases saved <;> simp

/-- A model file that was written is read as what its content is decoded to. -/
theorem loadModel_written (path : String) (s : SavedModel Float) :
    (do writeModel path s; loadModel path : Step m (SavedModel Float)) =
      (do
        writeModel path s
        ExceptT.mk (pure ((SavedModel.decode path (s.encode path)).mapError (.format path)))) := by
  rw [loadModel]
  exact load_writeFile path (s.encode path) _

/-- A file that reads back is read as the form it was written for. -/
theorem loadModel_of_decode (hdecode : SavedModel.decode path (s.encode path) = .ok s) :
    (do writeModel path s; loadModel path : Step m (SavedModel Float)) =
      (do writeModel path s; return s) := by
  rw [loadModel_written, hdecode]
  rfl

/-- A command reads the model of the file that another has written. -/
theorem readModel_written (hrange : s.InRange) (hvalid : s.Valid)
    (hroom : HasRoom s.vocSize s.topicNum)
    (hback : isJsonPath path = true → Value.ReadsBack s.alpha ∧ Value.ReadsBack s.beta) :
    (do writeModel path s; readModel path : Step m (Restored Float)) =
      (do writeModel path s; return .model hvalid.model) := by
  have hload := loadModel_of_decode (m := m) ((SavedModel.decode_encode_iff hrange path).2 hback)
  have hrestore : s.restore = .ok (.model hvalid.model) := by
    rw [SavedModel.restore_of_room hroom, Model.ofSaved_ok_iff.2 ⟨hvalid, rfl⟩]
    rfl
  rw [readModel, ← bind_assoc, hload, bind_assoc]
  simp only [pure_bind, hrestore]
  rfl

end Command

/-! ## Models kept in files -/

namespace SavedModel

open Command (Step writeModel loadModel)

/-- With room for its layout an exchange form is restored just if it is valid, and whatever it is
restored to is saved as the form that it was made of. For a form whose numbers are in range and for
any path, the path decides on the content of the file. If it makes it a file of JSON, it holds the
object of the form, and the form is read as it was just if the texts of both concentrations read
back. Else it holds eight bytes for each number, and the form is read as it was whatever its
concentrations. On a host that finds at a path what was saved there, to read the file that was
written gives the form again. -/
theorem restored (s : SavedModel Float) :
    (HasRoom s.vocSize s.topicNum → ((∃ r, s.restore = .ok r) ↔ s.Valid)) ∧
    (∀ r, s.restore = .ok r → r.save = .ok s) ∧
    (s.InRange → ∀ path : String,
      (isJsonPath path = true → Value.parse? (s.encode path) = some s.toJson ∧
        (decode path (s.encode path) = .ok s ↔
          Value.ReadsBack s.alpha ∧ Value.ReadsBack s.beta)) ∧
      (isJsonPath path = false → (s.encode path).length = 8 * (6 + s.flat.length) ∧
        decode path (s.encode path) = .ok s) ∧
      ((isJsonPath path = true → Value.ReadsBack s.alpha ∧ Value.ReadsBack s.beta) →
        ∀ {m : Type → Type} [Monad m] [Host m] [LawfulHost m],
          (do writeModel path s; loadModel path : Step m (SavedModel Float)) =
            (do writeModel path s; return s))) := by
  refine ⟨fun hroom => ⟨?_, ?_⟩, ?_, fun h path => ⟨fun hjson => ⟨?_, ?_⟩,
    fun hbinary => ⟨?_, ?_⟩, fun hback m _ _ _ => ?_⟩⟩
  · rintro ⟨r, hr⟩
    obtain ⟨-, m, hm, -⟩ | ⟨hnone, -⟩ := restore_ok_iff.1 hr
    · exact (Model.ofSaved_ok_iff.1 hm).1
    · exact absurd hroom hnone
  · intro h
    exact ⟨.model h.model, restore_ok_iff.2
      (.inl ⟨hroom, h.model, Model.ofSaved_ok_iff.2 ⟨h, rfl⟩, rfl⟩)⟩
  · intro r hr
    obtain ⟨-, m, hm, rfl⟩ | ⟨-, -, -, rfl⟩ := restore_ok_iff.1 hr
    · obtain ⟨h, rfl⟩ := Model.ofSaved_ok_iff.1 hm
      exact h.save_model
    · rfl
  · rw [encode, if_pos hjson]
    exact valueParse?_written Json.Layout.blank_indented s
  · exact (decode_encode_iff h path).trans (forall_prop_of_true hjson)
  · rw [encode, if_neg (by simp [hbinary])]
    exact s.length_writtenBinary
  · exact (decode_encode_iff h path).2 fun hjson => absurd hjson (by simp [hbinary])
  · exact Command.loadModel_of_decode ((decode_encode_iff h path).2 hback)

/-- A host on which every path is that of a file of its own. -/
structure Shelf where
  content? : String → Option Bytes

instance : Host (StateM Shelf) where
  load path := return ((← get).content? path).elim .missing .file
  save path content := modifyGet fun shelf =>
    (true, ⟨Function.update shelf.content? path (some content)⟩)
  print _ := return ()
  report _ := return ()
  processors := return 1

instance : LawfulHost (StateM Shelf) where
  load_save path content := by
    funext shelf
    show ((some (Option.elim (Function.update shelf.content? path (some content) path)
      Found.missing Found.file), _) : Option Found × Shelf) = (some (.file content), _)
    rw [Function.update_self]
    rfl

/-- Counts at the ends of their range, and a concentration of fifty by three. -/
theorem restored_limits :
    let s : SavedModel Float := ⟨1, 3, Float.ofBits 0x4030aaaaaaaaaaab,
      Float.ofBits 0x3f847ae147ae147b, 18446744073709551615,
      [-9223372036854775808, 9223372036854775807, 0, 7, -1, 3]⟩
    s.InRange ∧ HasRoom s.vocSize s.topicNum ∧ (∃ r, s.restore = .ok r ∧ r.save = .ok s) ∧
      ∀ path ∈ ["/models/wide.JSON", "../models/wide.bin"],
        decode path (s.encode path) = .ok s ∧
          ((do writeModel path s; loadModel path :
            Step (StateM Shelf) (SavedModel Float)).run.run ⟨fun _ => none⟩).1 = .ok s := by
  intro s
  have hrange : s.InRange := ⟨by decide, by decide, by decide, by decide, by decide⟩
  have hroom : HasRoom s.vocSize s.topicNum := by decide
  have hvalid : s.Valid := ⟨by decide +kernel, by decide +kernel, by decide, by decide, rfl⟩
  have hback : Value.ReadsBack s.alpha ∧ Value.ReadsBack s.beta := by decide +kernel
  obtain ⟨hmodel, hsaved, hfile⟩ := restored s
  obtain ⟨r, hr⟩ := (hmodel hroom).2 hvalid
  refine ⟨hrange, hroom, ⟨r, hr, hsaved r hr⟩, fun path _ => ⟨?_, ?_⟩⟩
  · obtain ⟨hjson, hbinary, -⟩ := hfile hrange path
    cases hpath : isJsonPath path with
    | true => exact (hjson hpath).2.2 hback
    | false => exact (hbinary hpath).2
  · obtain ⟨-, -, hread⟩ := hfile hrange path
    rw [hread fun _ => hback]
    rfl

/-- The form of a model with as many words as 64 bits can count, which is restored without one of
the counts that it should have. -/
theorem restored_without_counts :
    let s : SavedModel Float := ⟨18446744073709551615, 1, 0.1, 0.1, 0, []⟩
    (∃ r, s.restore = .ok r) ∧ s.flat.length ≠ (s.vocSize + 1) * s.topicNum ∧ ¬ s.Valid := by
  intro s
  have hoptions : s.options.check = .ok () := by decide +kernel
  have hlength : s.flat.length ≠ (s.vocSize + 1) * s.topicNum := by decide
  exact ⟨⟨_, restore_hollow (by decide) hoptions (by decide)⟩, hlength, fun h => hlength h.length⟩

end SavedModel

end TopicModel
