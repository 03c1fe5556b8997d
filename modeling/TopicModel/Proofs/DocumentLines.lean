import Mathlib
import TopicModel.Proofs.JsonRecords
import TopicModel.Storage.DocumentLine

/-!
# Documents written and read again

Documents with topics that are written as lines are read again as they were, whatever their fields
say about one another, as long as each number is in the range of its type
(`readDocuments_writeDocuments`). A document is one line: its text consists of printed bytes, so
there is no line feed among them and no carriage return at their end.
-/

namespace TopicModel

open Json (Value Token)

namespace TopicDocument

variable {d : TopicDocument}

/-- The numbers of the document are in the ranges of their types. Nothing is said about how the
lists go together. -/
structure InRange (d : TopicDocument) : Prop where
  id_ge : -2 ^ 63 ≤ d.document.id
  id_lt : d.document.id < 2 ^ 63
  words : ∀ w ∈ d.document.words, w < 2 ^ 64
  counts : ∀ n ∈ d.document.counts, n < 2 ^ 32
  tokenCount : d.tokenCount < 2 ^ 64
  topicCounts : ∀ i ∈ d.topics.counts, -2 ^ 63 ≤ i ∧ i < 2 ^ 63
  assignment : ∀ k ∈ d.topics.assignment, k < 2 ^ 64

/-! ## One document -/

/-- The members of the document as they are written. -/
def fields (d : TopicDocument) : List (String × Value) := [
  ("doc_id", .ofInt d.document.id),
  ("words", .ofNats d.document.words),
  ("counts", .ofNats d.document.counts),
  ("word_count", .ofNat d.tokenCount),
  ("topic_count", .ofInts d.topics.counts),
  ("topic_assignment", .ofNats d.topics.assignment)]

theorem toJson_eq (d : TopicDocument) : d.toJson = .record d.fields := rfl

theorem nodup_fields (d : TopicDocument) : (d.fields.map Prod.fst).Nodup := by
  have hnames : d.fields.map Prod.fst =
      ["doc_id", "words", "counts", "word_count", "topic_count", "topic_assignment"] := rfl
  rw [hnames]
  decide

theorem plain_toJson (d : TopicDocument) : d.toJson.Plain := by
  refine Value.plain_record ?_
  simp only [List.forall_mem_cons]
  exact ⟨⟨by decide, Value.plain_ofInt _⟩, ⟨by decide, Value.plain_ofNats _⟩,
    ⟨by decide, Value.plain_ofNats _⟩, ⟨by decide, Value.plain_ofInt _⟩,
    ⟨by decide, Value.plain_ofInts _⟩, ⟨by decide, Value.plain_ofNats _⟩, List.forall_mem_nil _⟩

theorem isStrict_toJson (h : d.InRange) : d.toJson.isStrict maxDepth = true := by
  have hnat : ∀ n depth, n < 2 ^ 64 → (Value.ofNat n).isStrict depth = true := fun n depth hn =>
    Value.isStrict_ofInt (by simpa using hn)
  have hint : ∀ i depth, -2 ^ 63 ≤ i ∧ i < 2 ^ 63 → (Value.ofInt i).isStrict depth = true :=
    fun i depth hi => Value.isStrict_ofInt (by omega)
  have hnats : ∀ ns : List Nat, (∀ n ∈ ns, n < 2 ^ 64) →
      (Value.ofNats ns).isStrict (maxDepth - 1) = true := fun ns hns =>
    Value.isStrict_array (by decide) (List.forall_mem_map.2 fun n hn => hnat n _ (hns n hn))
  have hints : (Value.ofInts d.topics.counts).isStrict (maxDepth - 1) = true :=
    Value.isStrict_array (by decide)
      (List.forall_mem_map.2 fun i hi => hint i _ (h.topicCounts i hi))
  have hcounts : ∀ n ∈ d.document.counts, n < 2 ^ 64 := fun n hn =>
    Nat.lt_trans (h.counts n hn) (by decide)
  refine Value.isStrict_record (by decide) ?_
  simp only [List.forall_mem_cons]
  exact ⟨hint _ _ ⟨h.id_ge, h.id_lt⟩, hnats _ h.words, hnats _ hcounts, hnat _ _ h.tokenCount,
    hints, hnats _ h.assignment, List.forall_mem_nil _⟩

/-- The six members are found by their names, and their values are in range. -/
theorem ofMembers?_fields (h : d.InRange) : ofMembers? (Value.byName d.fields) = some d := by
  have hread : ∀ {τ : Type} {name : String} {v : Value} {read? : Value → Option τ} {x : τ},
      (name, v) ∈ d.fields → read? v = some x →
      (Value.member? name (Value.byName d.fields)).bind read? = some x := by
    intro τ name v read? x hmem hv
    rw [Value.member?_byName d.nodup_fields hmem, Option.bind_some, hv]
  have hid : Value.integer? 64 (.ofInt d.document.id) = some d.document.id :=
    Value.integer?_ofInt h.id_ge h.id_lt
  rw [ofMembers?, hread (by simp [fields]) hid,
    hread (by simp [fields]) (Value.list?_ofNats h.words),
    hread (by simp [fields]) (Value.list?_ofNats h.counts),
    hread (by simp [fields]) (Value.natural?_ofNat h.tokenCount),
    hread (by simp [fields]) (Value.list?_ofInts h.topicCounts),
    hread (by simp [fields]) (Value.list?_ofNats h.assignment)]
  rfl

theorem ofJson?_toJson (h : d.InRange) : ofJson? d.toJson = some d := by
  have hstrict := isStrict_toJson h
  rw [toJson_eq, Value.record] at hstrict ⊢
  rw [ofJson?, if_pos hstrict, Value.named?_record, Option.bind_some, ofMembers?_fields h]

/-- The text of a document is that of its object. -/
theorem valueParse?_written (d : TopicDocument) : Value.parse? d.written = some d.toJson :=
  Value.parse?_written Json.Layout.blank_compact 0 (plain_toJson d)

theorem parse?_written (h : d.InRange) : parse? d.written = some d := by
  rw [parse?, valueParse?_written, Option.bind_some, ofJson?_toJson h]

/-! ## Lines -/

theorem isPrinted_written (d : TopicDocument) : ∀ b ∈ d.written, Json.isPrinted b = true := by
  intro b hb
  rw [written, Value.written_compact] at hb
  obtain ⟨t, ht, hb⟩ := List.mem_flatMap.1 hb
  exact List.all_eq_true.1 (Token.all_isPrinted_written (plain_toJson d t ht)) b hb

theorem notMem_written {b : UInt8} (h : Json.isPrinted b = false) (d : TopicDocument) :
    b ∉ d.written := by
  intro hb
  have hprinted := isPrinted_written d b hb
  rw [h] at hprinted
  cases hprinted

theorem dropReturn_written (d : TopicDocument) : Text.dropReturn d.written = d.written := by
  refine if_neg fun hlast => ?_
  exact notMem_written (by decide) d (List.mem_of_getLast? hlast)

theorem ofLine_written (h : d.InRange) : ofLine d.written = .ok (some d) := by
  have hascii : ∀ b ∈ d.written, b < 0x80 := by
    intro b hb
    have hprinted := isPrinted_written d b hb
    simp only [Json.isPrinted, Bool.and_eq_true, decide_eq_true_eq] at hprinted
    exact UInt8.lt_of_le_of_lt hprinted.2 (by decide)
  have hdecode := Text.decode?_eq_some_iff.2 (Text.encode_ofList_ascii hascii)
  have hbrace : '\x7b' ∈ d.written.map Char.ofUInt8 := by
    refine List.mem_map.2 ⟨0x7b, ?_, rfl⟩
    rw [written, Value.written_compact]
    exact List.mem_cons_self
  have hnotBlank : ¬ (d.written.map Char.ofUInt8).all Text.isBlank = true := fun hblank =>
    absurd (List.all_eq_true.1 hblank _ hbrace) (by decide)
  simp only [ofLine, hdecode, String.toList_ofList, if_neg hnotBlank, parse?_written h]

theorem ofLines_map_written {ds : List TopicDocument} (h : ∀ d ∈ ds, d.InRange) :
    ofLines (ds.map written) = .ok ds := by
  induction ds with
  | nil => rfl
  | cons d ds ih =>
    obtain ⟨hd, h⟩ := List.forall_mem_cons.1 h
    rw [List.map_cons, ofLines, ofLine_written hd, ih h]
    rfl

end TopicDocument

/-- Every document is a line of its own. -/
theorem lines_writeDocuments (ds : List TopicDocument) :
    Text.lines (writeDocuments ds) = ds.map TopicDocument.written := by
  induction ds with
  | nil => exact Text.lines_nil
  | cons d ds ih =>
    rw [writeDocuments] at ih ⊢
    have hline := Text.lines_cons (d.notMem_written (by decide))
    rw [List.flatMap_cons, List.append_assoc, List.singleton_append, hline, d.dropReturn_written,
      ih, List.map_cons]

/-- Documents are written as one object each on a line of its own, and are read again, all of them
in their order and as they were. -/
theorem readDocuments_writeDocuments {ds : List TopicDocument} (h : ∀ d ∈ ds, d.InRange) :
    (Text.lines (writeDocuments ds)).map Value.parse? = ds.map (fun d => some d.toJson) ∧
    readDocuments (writeDocuments ds) = .ok ds := by
  constructor
  · rw [lines_writeDocuments, List.map_map]
    exact List.map_congr_left fun d _ => d.valueParse?_written
  · rw [readDocuments, lines_writeDocuments, TopicDocument.ofLines_map_written h]

/-- A document without words, and one whose fields are at their limits and contradict each other. -/
theorem readDocuments_writeDocuments_limits :
    let ds : List TopicDocument := [
      ⟨⟨-9223372036854775808, [], []⟩, 0, ⟨[], []⟩⟩,
      ⟨⟨9223372036854775807, [18446744073709551615, 0], [4294967295]⟩, 18446744073709551615,
        ⟨[-9223372036854775808, 9223372036854775807, 0], [18446744073709551615]⟩⟩]
    (∀ d ∈ ds, d.InRange) ∧ readDocuments (writeDocuments ds) = .ok ds := by
  intro ds
  have h : ∀ d ∈ ds, d.InRange := by
    simp only [ds, List.forall_mem_cons]
    refine ⟨⟨?_, ?_, ?_, ?_, ?_, ?_, ?_⟩, ⟨?_, ?_, ?_, ?_, ?_, ?_, ?_⟩, ?_⟩ <;> simp
  exact ⟨h, (readDocuments_writeDocuments h).2⟩

end TopicModel
