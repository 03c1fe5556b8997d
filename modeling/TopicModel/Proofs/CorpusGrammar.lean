import TopicModel.Proofs.Corpus
import TopicModel.Proofs.Numerals
import TopicModel.Proofs.Text

/-!
# The grammar of a corpus

A line is `Readable` if it is text and all of it is blank or `Spells` an entry: three fields, each
the numeral of a number of its width. A corpus is read just if all its lines are readable, and
refused for the first line that is not (`read_accepts_grammar`).

`LineFaulty` says what a line is refused for. The fields are looked at from the left, so a fault of
a field means that those before it denote numbers.
-/

namespace TopicModel.Corpus

open Decimal Outcome

variable {cs : List Char} {line : Bytes} {number : Nat} {fault : LineFault} {error : Error}

/-- The line has the three fields of the entry. -/
structure Spells (cs : List Char) (e : Entry) (document word count : List Char) : Prop where
  fields : Text.Separated cs [document, word, count]
  document : ReadsInteger 64 document e.document
  word : ReadsNatural 64 word e.word
  count : ReadsNatural 32 count e.count

/-- The line is text, blank or an entry. -/
def Readable (line : Bytes) : Prop :=
  ∃ text, Text.encode text = line ∧
    ((∀ c ∈ text.toList, Text.isBlank c = true) ∨
      ∃ e document word count, Spells text.toList e document word count)

/-- What is wrong with a line, its first fault from the left. -/
inductive LineFaulty (cs : List Char) : LineFault → Prop
  | fieldCount {fields : List (List Char)} : Text.Separated cs fields → fields ≠ [] →
      fields.length ≠ 3 → LineFaulty cs .fieldCount
  | documentId {document word count : List Char} {fault : IntegerFault} :
      Text.Separated cs [document, word, count] → IntegerRefused 64 document fault →
      LineFaulty cs (.documentId fault)
  | wordId {document word count : List Char} {i : Int} {fault : IntegerFault} :
      Text.Separated cs [document, word, count] → ReadsInteger 64 document i →
      NaturalRefused 64 word fault → LineFaulty cs (.wordId fault)
  | count {document word count : List Char} {i : Int} {w : Nat} {fault : IntegerFault} :
      Text.Separated cs [document, word, count] → ReadsInteger 64 document i →
      ReadsNatural 64 word w → NaturalRefused 32 count fault → LineFaulty cs (.count fault)

/-- What a line with this number is refused for. -/
inductive Unreadable (line : Bytes) (number : Nat) : Error → Prop
  | notText : (∀ text, Text.encode text ≠ line) → Unreadable line number .notText
  | line {text : String} {fault : LineFault} : Text.encode text = line →
      LineFaulty text.toList fault → Unreadable line number (.line number fault)

/-! ## Lines -/

namespace Entry

theorem ofLine_accepts_iff : (∃ entry, ofLine cs = .ok entry) ↔
    (∀ c ∈ cs, Text.isBlank c = true) ∨
      ∃ e document word count, Spells cs e document word count := by
  constructor
  · rintro ⟨entry, h⟩
    cases entry with
    | none => exact .inl (Text.fields_eq_nil_iff.1 (ofLine_none_iff.1 h))
    | some e =>
      obtain ⟨document, word, count, hfields, hdocument, hword, hcount⟩ := ofLine_some_iff.1 h
      exact .inr ⟨e, document, word, count, Text.fields_eq_iff.1 hfields,
        parseInteger_ok_iff.1 hdocument, parseNatural_ok_iff.1 hword, parseNatural_ok_iff.1 hcount⟩
  · rintro (hblank | ⟨e, document, word, count, h⟩)
    · exact ⟨none, ofLine_none_iff.2 (Text.fields_eq_nil_iff.2 hblank)⟩
    · exact ⟨some e, ofLine_some_iff.2 ⟨document, word, count, Text.fields_eq_iff.2 h.fields,
        parseInteger_ok_iff.2 h.document, parseNatural_ok_iff.2 h.word,
        parseNatural_ok_iff.2 h.count⟩⟩

/-- The fault of three fields is that of the first that denotes no number. -/
theorem ofLine_fields_error_iff {document word count : List Char}
    (h : Text.fields cs = [document, word, count]) : ofLine cs = .error fault ↔
    (∃ f, parseInteger 64 document = .error f ∧ .documentId f = fault) ∨
    ∃ i, parseInteger 64 document = .ok i ∧
      ((∃ f, parseNatural (maxOfBits 64) word = .error f ∧ .wordId f = fault) ∨
      ∃ w, parseNatural (maxOfBits 64) word = .ok w ∧
        ∃ f, parseNatural (maxOfBits 32) count = .error f ∧ .count f = fault) := by
  simp only [ofLine, h, bind_eq_error_iff, mapError_eq_error_iff, mapError_eq_ok_iff, pure,
    Except.pure, reduceCtorEq, and_false, exists_false, or_false]

theorem ofLine_error_iff : ofLine cs = .error fault ↔ LineFaulty cs fault := by
  constructor
  · intro h
    have hfields := Text.fields_eq_iff.1 (rfl : Text.fields cs = Text.fields cs)
    by_cases hthree : ∃ document word count, Text.fields cs = [document, word, count]
    · obtain ⟨document, word, count, hthree⟩ := hthree
      rw [hthree] at hfields
      rw [ofLine_fields_error_iff hthree] at h
      simp only [parseInteger_ok_iff, parseInteger_error_iff, parseNatural_ok_iff,
        parseNatural_error_iff] at h
      obtain ⟨f, hf, rfl⟩ | ⟨i, hi, ⟨f, hf, rfl⟩ | ⟨w, hw, f, hf, rfl⟩⟩ := h
      · exact .documentId hfields hf
      · exact .wordId hfields hi hf
      · exact .count hfields hi hw hf
    · unfold ofLine at h
      split at h
      · cases h
      · rename_i document word count hfields'
        exact absurd ⟨document, word, count, hfields'⟩ hthree
      · rename_i hne _
        cases h
        refine .fieldCount hfields hne fun hlength => hthree ?_
        exact List.length_eq_three.1 hlength
  · intro h
    cases h with
    | fieldCount hfields hne hlength =>
      rw [ofLine, hfields.fields_eq]
      split
      · exact absurd rfl hne
      · exact absurd rfl hlength
      · rfl
    | documentId hfields hf =>
      exact (ofLine_fields_error_iff hfields.fields_eq).2
        (.inl ⟨_, parseInteger_error_iff.2 hf, rfl⟩)
    | wordId hfields hi hf =>
      exact (ofLine_fields_error_iff hfields.fields_eq).2
        (.inr ⟨_, parseInteger_ok_iff.2 hi, .inl ⟨_, parseNatural_error_iff.2 hf, rfl⟩⟩)
    | count hfields hi hw hf =>
      exact (ofLine_fields_error_iff hfields.fields_eq).2
        (.inr ⟨_, parseInteger_ok_iff.2 hi, .inr ⟨_, parseNatural_ok_iff.2 hw, _,
          parseNatural_error_iff.2 hf, rfl⟩⟩)

theorem ofBytes_accepts_iff : (∃ entry, ofBytes line number = .ok entry) ↔ Readable line := by
  unfold ofBytes Readable
  simp only [← ofLine_accepts_iff, ← Text.decode?_eq_some_iff]
  cases Text.decode? line <;> simp [mapError_eq_ok_iff]

theorem ofBytes_error_iff : ofBytes line number = .error error ↔ Unreadable line number error := by
  constructor
  · intro h
    unfold ofBytes at h
    split at h
    · rename_i hdecode
      cases h
      refine .notText fun text htext => ?_
      rw [Text.decode?_eq_some_iff.2 htext] at hdecode
      cases hdecode
    · rename_i text hdecode
      obtain ⟨fault, hfault, rfl⟩ := mapError_eq_error_iff.1 h
      exact .line (Text.decode?_eq_some_iff.1 hdecode) (ofLine_error_iff.1 hfault)
  · intro h
    cases h with
    | notText hno =>
      cases hdecode : Text.decode? line with
      | none => rw [ofBytes, hdecode]
      | some text => exact absurd (Text.decode?_eq_some_iff.1 hdecode) (hno text)
    | line htext hfault =>
      rw [ofBytes, Text.decode?_eq_some_iff.2 htext]
      exact mapError_eq_error_iff.2 ⟨_, ofLine_error_iff.2 hfault, rfl⟩

end Entry

/-! ## Files -/

theorem entriesOf_accepts_iff {ls : List Bytes} :
    (∃ es, entriesOf (ls.zipIdx number) = .ok es) ↔ ∀ line ∈ ls, Readable line := by
  induction ls generalizing number with
  | nil => simp [entriesOf]
  | cons line ls ih =>
    rw [List.forall_mem_cons, ← ih, ← Entry.ofBytes_accepts_iff]
    simp only [List.zipIdx_cons, entriesOf, bind_eq_ok_iff, pure, Except.pure, Except.ok.injEq]
    constructor
    · rintro ⟨es, entry, hentry, others, hothers, -⟩
      exact ⟨⟨entry, hentry⟩, others, hothers⟩
    · rintro ⟨⟨entry, hentry⟩, others, hothers⟩
      exact ⟨_, entry, hentry, others, hothers, rfl⟩

/-- The lines before the one that is refused are read, those behind it do not matter. -/
theorem entriesOf_error_iff {ls : List Bytes} : entriesOf (ls.zipIdx number) = .error error ↔
    ∃ before line after, ls = before ++ line :: after ∧ (∀ l ∈ before, Readable l) ∧
      Unreadable line (number + before.length) error := by
  induction ls generalizing number with
  | nil => simp [entriesOf]
  | cons first ls ih =>
    simp only [List.zipIdx_cons, entriesOf, bind_eq_error_iff, pure, Except.pure, reduceCtorEq,
      and_false, exists_false, or_false, ih, Entry.ofBytes_error_iff]
    constructor
    · rintro (hfirst | ⟨entry, hentry, before, line, after, rfl, hbefore, hline⟩)
      · exact ⟨[], first, ls, rfl, List.forall_mem_nil _, hfirst⟩
      · have hfirst := Entry.ofBytes_accepts_iff.1 ⟨entry, hentry⟩
        refine ⟨first :: before, line, after, rfl, List.forall_mem_cons.2 ⟨hfirst, hbefore⟩, ?_⟩
        rwa [List.length_cons, Nat.add_comm before.length, ← Nat.add_assoc]
    · rintro ⟨before, line, after, hls, hbefore, hline⟩
      cases before with
      | nil =>
        cases hls
        exact .inl hline
      | cons l before =>
        cases hls
        obtain ⟨hfirst, hbefore⟩ := List.forall_mem_cons.1 hbefore
        obtain ⟨entry, hentry⟩ := Entry.ofBytes_accepts_iff.2 hfirst
        refine .inr ⟨entry, hentry, before, line, after, rfl, hbefore, ?_⟩
        rwa [List.length_cons, Nat.add_comm before.length, ← Nat.add_assoc] at hline

/-- Files with the same lines up to one that is not readable are refused alike. -/
theorem entriesOf_congr {before ls ls' : List Bytes} (hline : ¬ Readable line)
    (h : before ++ [line] <+: ls) (h' : before ++ [line] <+: ls') :
    entriesOf (ls'.zipIdx number) = entriesOf (ls.zipIdx number) := by
  cases hls : entriesOf (ls.zipIdx number) with
  | ok es =>
    have hread := entriesOf_accepts_iff.1 ⟨es, hls⟩
    exact absurd (hread line (h.subset (List.mem_append_right before List.mem_cons_self))) hline
  | error error =>
    obtain ⟨before', line', after', rfl, hbefore, hrefused⟩ := entriesOf_error_iff.1 hls
    have hfirst : before' ++ [line'] <+: before' ++ line' :: after' := ⟨after', by simp⟩
    -- the line that is refused is not behind the one that is not readable
    have hearly : (before' ++ [line']).length ≤ (before ++ [line]).length := by
      by_contra hlate
      have hbehind : before ++ [line] <+: before' := by
        refine List.prefix_of_prefix_length_le h (List.prefix_append before' _) ?_
        simp only [List.length_append, List.length_singleton] at hlate ⊢
        omega
      exact hline (hbefore line (hbehind.subset (List.mem_append_right before List.mem_cons_self)))
    obtain ⟨after, rfl⟩ := (List.prefix_of_prefix_length_le hfirst h hearly).trans h'
    exact entriesOf_error_iff.2 ⟨before', line', after, by simp, hbefore, hrefused⟩

/-- A corpus is read just if all its lines are readable. Otherwise the first line that is not is
what it is refused for, under its number counted from one, and no line behind it matters. The
message has the number of the line and says which field is wrong and how. No arithmetic refuses a
sum of counts. -/
theorem read_accepts_grammar [Arithmetic] (bytes : Bytes) :
    (∀ ls, Text.lines bytes = ls ↔ Text.Lined bytes ls) ∧
    ((∃ ds, read bytes = .ok ds) ↔ ∀ line ∈ Text.lines bytes, Readable line) ∧
    (∀ error, read bytes = .error error ↔ ∃ before line after,
      Text.lines bytes = before ++ line :: after ∧ (∀ l ∈ before, Readable l) ∧
        Unreadable line (before.length + 1) error) ∧
    (∀ number fault, (Error.line number fault).message =
      "line " ++ toString number ++ ": " ++ fault.message) ∧
    (∀ fault : IntegerFault, LineFault.message (.documentId fault) = "doc id: " ++ fault.message ∧
      LineFault.message (.wordId fault) = "word id: " ++ fault.message ∧
      LineFault.message (.count fault) = "count: " ++ fault.message) ∧
    ∀ before line bytes', ¬ Readable line → before ++ [line] <+: Text.lines bytes →
      before ++ [line] <+: Text.lines bytes' → read bytes' = read bytes := by
  refine ⟨fun ls => Text.lines_eq_iff, ?_, fun error => ?_, fun number fault => rfl,
    fun fault => ⟨rfl, rfl, rfl⟩, fun before line bytes' hline h h' => ?_⟩
  · have hread : (∃ ds, read bytes = .ok ds) ↔ ∃ es, entries bytes = .ok es := by
      simp only [read, map_eq_ok_iff]
      constructor
      · rintro ⟨ds, es, hes, -⟩
        exact ⟨es, hes⟩
      · rintro ⟨es, hes⟩
        exact ⟨_, es, hes, rfl⟩
    exact hread.trans entriesOf_accepts_iff
  · rw [read, map_eq_error_iff, entries, entriesOf_error_iff]
    simp only [Nat.add_comm 1]
  · rw [read, read, entries, entries, entriesOf_congr hline h h']

/-- A blank line counts, and the lines behind the word that is refused are not looked at. -/
example : read (Text.encode "7 1 2\n\n-7 +x 2\n9\n") =
    .error (.line 3 (.wordId .invalidDigit)) := by cbv

end TopicModel.Corpus
