import Mathlib
import TopicModel.Proofs.JsonTexts
import TopicModel.Proofs.Text

/-!
# Reading records

Integers of a width, lists and the members of an object are read as the values that they were made
of. Such values are plain, so that their texts are read again (`Value.Plain`), and strict.
-/

namespace TopicModel.Json

namespace Quoted

theorem bytes?_map_byte (bytes : Bytes) : bytes? (bytes.map .byte) = some bytes := by
  induction bytes with
  | nil => rfl
  | cons b bytes ih => rw [List.map_cons, bytes?, ih, Option.map_some]

theorem text?_ofText (text : String) : (ofText text).text? = some text := by
  rw [text?, ofText, bytes?_map_byte, Option.bind_some]
  exact Text.decode?_eq_some_iff.2 rfl

end Quoted

namespace Value

variable {bits depth : Nat} {v : Value} {vs : List Value} {ms : List (Quoted × Value)}

/-! ## Values read -/

theorem natural?_ofNat {n : Nat} (h : n < 2 ^ bits) : natural? bits (ofNat n) = some n := by
  rw [ofNat, ofInt, natural?, Number.integer?_ofInt, Option.bind_some, if_pos]
  · rfl
  · rw [Nat.one_shiftLeft]
    exact ⟨Int.natCast_nonneg n, Int.ofNat_lt.2 h⟩

theorem integer?_ofInt {i : Int} (hlow : -2 ^ (bits - 1) ≤ i) (hhigh : i < 2 ^ (bits - 1)) :
    integer? bits (ofInt i) = some i := by
  rw [ofInt, integer?, Number.integer?_ofInt, Option.bind_some, if_pos]
  rw [Nat.one_shiftLeft]
  exact ⟨by push_cast; exact hlow, by push_cast; exact hhigh⟩

theorem list?_map {τ : Type} {item? : Value → Option τ} {write : τ → Value} {xs : List τ}
    (h : ∀ x ∈ xs, item? (write x) = some x) : list? item? (array (xs.map write)) = some xs := by
  simp only [list?]
  induction xs with
  | nil => rfl
  | cons x xs ih =>
    obtain ⟨hx, h⟩ := List.forall_mem_cons.1 h
    rw [List.map_cons, List.mapM_cons, hx, ih h]
    rfl

theorem list?_ofNats {ns : List Nat} (h : ∀ n ∈ ns, n < 2 ^ bits) :
    list? (natural? bits) (ofNats ns) = some ns := list?_map fun n hn => natural?_ofNat (h n hn)

theorem list?_ofInts {is : List Int}
    (h : ∀ i ∈ is, -2 ^ (bits - 1) ≤ i ∧ i < 2 ^ (bits - 1)) :
    list? (integer? bits) (ofInts is) = some is :=
  list?_map fun i hi => integer?_ofInt (h i hi).1 (h i hi).2

/-- The members of a record are known by the bytes of their names. -/
def byName (fields : List (String × Value)) : List (Bytes × Value) :=
  fields.map fun (name, v) => (Text.encode name, v)

theorem named?_record (fields : List (String × Value)) :
    named? (fields.map fun (name, v) => (Quoted.ofText name, v)) = some (byName fields) := by
  induction fields with
  | nil => rfl
  | cons f fields ih =>
    rw [named?] at ih ⊢
    simp only [List.map_cons, List.mapM_cons, ih, Quoted.text?_ofText]
    rfl

/-- A name that comes once is found. -/
theorem member?_byName {fields : List (String × Value)} {name : String}
    (hnodup : (fields.map Prod.fst).Nodup) (hmem : (name, v) ∈ fields) :
    member? name (byName fields) = some v := by
  have hfilter : (byName fields).filter (fun m => m.1 == Text.encode name) =
      [(Text.encode name, v)] := by
    induction fields with
    | nil => cases hmem
    | cons f fields ih =>
      obtain ⟨hfresh, hnodup⟩ := List.nodup_cons.1 hnodup
      rcases List.mem_cons.1 hmem with rfl | hmem
      · have hnone : (byName fields).filter (fun m => m.1 == Text.encode name) = [] := by
          refine List.filter_eq_nil_iff.2 fun m hm => ?_
          obtain ⟨f, hf, rfl⟩ := List.mem_map.1 hm
          rw [beq_iff_eq, Text.encode_inj]
          rintro rfl
          exact hfresh (List.mem_map.2 ⟨f, hf, rfl⟩)
        simpa [byName] using hnone
      · have hother : f.1 ≠ name := by
          rintro rfl
          exact hfresh (List.mem_map.2 ⟨(f.1, v), hmem, rfl⟩)
        simpa [byName, Text.encode_inj, hother] using ih hnodup hmem
  rw [member?, hfilter]

/-! ## Plain values -/

theorem plain_ofInt (i : Int) : (ofInt i).Plain :=
  List.forall_mem_singleton.2 (Number.sound_ofInt i)

theorem plain_itemsTokens (h : ∀ v ∈ vs, v.Plain) : ∀ t ∈ itemsTokens vs, t.Plain := by
  induction vs with
  | nil => exact List.forall_mem_nil _
  | cons v vs ih =>
    obtain ⟨hv, h⟩ := List.forall_mem_cons.1 h
    simp only [itemsTokens, List.forall_mem_cons, List.forall_mem_append]
    exact ⟨trivial, hv, ih h⟩

theorem plain_array (h : ∀ v ∈ vs, v.Plain) : (array vs).Plain := by
  cases vs with
  | nil => simp [Plain, tokens, Token.Plain]
  | cons v vs =>
    obtain ⟨hv, h⟩ := List.forall_mem_cons.1 h
    simp only [Plain, tokens, List.forall_mem_cons, List.forall_mem_append]
    exact ⟨trivial, ⟨hv, plain_itemsTokens h⟩, trivial, List.forall_mem_nil _⟩

theorem plain_ofInts (is : List Int) : (ofInts is).Plain :=
  plain_array (List.forall_mem_map.2 fun i _ => plain_ofInt i)

theorem plain_ofNats (ns : List Nat) : (ofNats ns).Plain :=
  plain_array (List.forall_mem_map.2 fun n _ => plain_ofInt n)

theorem plain_memberTokens {m : Quoted × Value} (hname : (Token.quoted m.1).Plain)
    (hv : m.2.Plain) : ∀ t ∈ memberTokens m, t.Plain := by
  obtain ⟨name, v⟩ := m
  simp only [memberTokens, List.forall_mem_cons]
  exact ⟨hname, trivial, hv⟩

theorem plain_membersTokens (h : ∀ m ∈ ms, (Token.quoted m.1).Plain ∧ m.2.Plain) :
    ∀ t ∈ membersTokens ms, t.Plain := by
  induction ms with
  | nil => exact List.forall_mem_nil _
  | cons m ms ih =>
    obtain ⟨⟨hname, hv⟩, h⟩ := List.forall_mem_cons.1 h
    simp only [membersTokens, List.forall_mem_cons, List.forall_mem_append]
    exact ⟨trivial, plain_memberTokens hname hv, ih h⟩

theorem plain_object (h : ∀ m ∈ ms, (Token.quoted m.1).Plain ∧ m.2.Plain) : (object ms).Plain := by
  cases ms with
  | nil => simp [Plain, tokens, Token.Plain]
  | cons m ms =>
    obtain ⟨⟨hname, hv⟩, h⟩ := List.forall_mem_cons.1 h
    simp only [Plain, tokens, List.forall_mem_cons, List.forall_mem_append]
    exact ⟨trivial, ⟨plain_memberTokens hname hv, plain_membersTokens h⟩, trivial,
      List.forall_mem_nil _⟩

theorem plain_record {fields : List (String × Value)}
    (h : ∀ f ∈ fields, (Text.encode f.1).all isPrinted = true ∧ f.2.Plain) :
    (record fields).Plain := by
  refine plain_object fun m hm => ?_
  obtain ⟨⟨name, v⟩, hf, rfl⟩ := List.mem_map.1 hm
  obtain ⟨hname, hv⟩ := h _ hf
  refine ⟨fun p hp => ?_, hv⟩
  obtain ⟨b, hb, rfl⟩ := List.mem_map.1 hp
  exact ⟨b, rfl, List.all_eq_true.1 hname b hb⟩

/-! ## Strict values -/

theorem isStrict_ofInt {i : Int} (h : i.natAbs < 2 ^ 64) : (ofInt i).isStrict depth = true :=
  Number.isSome_double?_ofInt h

theorem isStrict_array (hdepth : 0 < depth) (h : ∀ v ∈ vs, v.isStrict (depth - 1) = true) :
    (array vs).isStrict depth = true := by
  have hitems : allStrict (depth - 1) vs = true := by
    induction vs with
    | nil => rfl
    | cons v vs ih =>
      obtain ⟨hv, h⟩ := List.forall_mem_cons.1 h
      rw [allStrict, hv, ih h]
      rfl
  simp [isStrict, hdepth, hitems]

theorem isStrict_record {fields : List (String × Value)} (hdepth : 0 < depth)
    (h : ∀ f ∈ fields, f.2.isStrict (depth - 1) = true) :
    (record fields).isStrict depth = true := by
  have hmembers : membersStrict (depth - 1)
      (fields.map fun (name, v) => (Quoted.ofText name, v)) = true := by
    induction fields with
    | nil => rfl
    | cons f fields ih =>
      obtain ⟨hf, h⟩ := List.forall_mem_cons.1 h
      rw [List.map_cons, membersStrict, Quoted.text?_ofText, hf, ih h]
      rfl
  simp [record, isStrict, hdepth, hmembers]

end Value

end TopicModel.Json
