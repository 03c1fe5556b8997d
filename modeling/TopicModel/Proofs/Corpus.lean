import Mathlib
import TopicModel.Corpus.Bags
import TopicModel.Proofs.Arithmetic

/-!
# The documents of a corpus

`Collects es ds`: the documents `ds` are the entries `es` collected. There is one document for every
id that occurs, in ascending order, and each is the bag of its entries (`Bag`). The order of the
entries does not matter (`Collects.perm`), and they leave no choice among the documents
(`Collects.unique`).

`prepend` keeps this as long as the entry is not after any of those collected (`Collects.prepend`):
only then do the others of its document and word stand in front. That the entries are sorted first
makes it so at every step (`collects_documentsOf`).

A line of an accepted corpus is blank or has an entry (`Entry.ofBytes_ok_iff`, `entriesOf_ok_iff`).

The documents collect the entries in exact arithmetic. As long as all sums have room, every
arithmetic reads the same documents (`read_of_room`, `read_exact`).
-/

namespace TopicModel

/-! ## Blank lines -/

namespace Text

theorem fields_eq_nil_iff {cs : List Char} : fields cs = [] ↔ ∀ c ∈ cs, isBlank c = true := by
  unfold fields
  induction cs with
  | nil => simp
  | cons c cs ih =>
    rw [List.splitOnP_cons_eq_if_modifyHead]
    by_cases hc : isBlank c = true
    · simpa [hc] using ih
    · obtain ⟨run, runs, hruns⟩ := List.exists_cons_of_ne_nil (List.splitOnP_ne_nil isBlank cs)
      simp [hc, hruns]

/-- The line is text and all of it is blank. -/
def isBlankLine (line : Bytes) : Bool :=
  (decode? line).any fun text => text.toList.all isBlank

end Text

/-! ## Words of a document -/

namespace Document

@[simp] theorem id_addInFront [Arithmetic] (d : Document) (word count : Nat) :
    (d.addInFront word count).id = d.id := by
  unfold addInFront
  split
  · split <;> rfl
  · rfl

open scoped Exact in
theorem tokenCount_addInFront (d : Document) (word count : Nat) :
    (d.addInFront word count).tokenCount = count + d.tokenCount := by
  unfold addInFront tokenCount
  split
  · rename_i w words c counts hwords hcounts
    split <;> simp [hcounts, Nat.add_assoc]
  · rfl

theorem tokens_cons (id : Int) (word count : Nat) (words counts : List Nat) :
    (⟨id, word :: words, count :: counts⟩ : Document).tokens =
      List.replicate count word ++ (⟨id, words, counts⟩ : Document).tokens := rfl

end Document

namespace Corpus

open Arithmetic (unsigned)
open Outcome

variable {e : Entry} {es es' : List Entry} {d d' : Document} {ds ds' : List Document}

/-! ## Entries of lines -/

namespace Entry

/-- The entry of a line; a line that is blank has none, nor has one that is refused. -/
def ofBytes? (line : Bytes) : Option Entry :=
  match ofBytes line 0 with
  | .ok entry => entry
  | .error _ => none

/-- The line has the three fields of the entry. -/
def IsWritten (e : Entry) (line : Bytes) : Prop :=
  ∃ text, Text.decode? line = some text ∧
    ∃ document word count, Text.fields text.toList = [document, word, count] ∧
      Decimal.parseInteger 64 document = .ok e.document ∧
      Decimal.parseNatural (Decimal.maxOfBits 64) word = .ok e.word ∧
      Decimal.parseNatural (Decimal.maxOfBits 32) count = .ok e.count

theorem ofLine_some_iff {line : List Char} : ofLine line = .ok (some e) ↔
    ∃ document word count, Text.fields line = [document, word, count] ∧
      Decimal.parseInteger 64 document = .ok e.document ∧
      Decimal.parseNatural (Decimal.maxOfBits 64) word = .ok e.word ∧
      Decimal.parseNatural (Decimal.maxOfBits 32) count = .ok e.count := by
  obtain ⟨i, w, n⟩ := e
  unfold ofLine
  split
  · rename_i hfields
    simp [hfields]
  · rename_i document word count hfields
    simp [hfields, bind_eq_ok_iff, mapError_eq_ok_iff, pure, Except.pure]
  · rename_i hfields
    simp only [reduceCtorEq, false_iff]
    rintro ⟨document, word, count, hthree, -⟩
    exact hfields document word count hthree

theorem ofLine_none_iff {line : List Char} : ofLine line = .ok none ↔ Text.fields line = [] := by
  unfold ofLine
  split <;> simp_all [bind_eq_ok_iff, pure, Except.pure]

theorem ofBytes?_eq_some_iff {line : Bytes} : ofBytes? line = some e ↔ e.IsWritten line := by
  unfold ofBytes? ofBytes IsWritten
  cases Text.decode? line with
  | none => simp
  | some text =>
    have hsome : ofLine text.toList = .ok (some e) ↔ _ := ofLine_some_iff
    simp only [Option.some.injEq, exists_eq_left', ← hsome]
    cases ofLine text.toList <;> simp [Except.mapError]

/-- A line is accepted if it is blank or has an entry, whatever its number. -/
theorem ofBytes_ok_iff {line : Bytes} {number : Nat} {entry : Option Entry} :
    ofBytes line number = .ok entry ↔
      ofBytes? line = entry ∧ (Text.isBlankLine line = true ∨ (ofBytes? line).isSome = true) := by
  unfold ofBytes? ofBytes Text.isBlankLine
  cases Text.decode? line with
  | none => simp
  | some text =>
    have hblank : text.toList.all Text.isBlank = true ↔ ofLine text.toList = .ok none := by
      rw [ofLine_none_iff, Text.fields_eq_nil_iff, List.all_eq_true]
    simp only [Option.any_some, hblank]
    cases ofLine text.toList with
    | error fault => simp [Except.mapError]
    | ok entry' => cases entry' <;> simp [Except.mapError]

theorem ofBytes?_of_blank {line : Bytes} (h : Text.isBlankLine line = true) :
    ofBytes? line = none := by
  obtain ⟨text, htext, hblank⟩ : ∃ text, Text.decode? line = some text ∧
      ∀ c ∈ text.toList, Text.isBlank c = true := by
    simpa [Text.isBlankLine, Option.any_eq_true] using h
  have hnone := ofLine_none_iff.2 (Text.fields_eq_nil_iff.2 hblank)
  simp only [ofBytes?, ofBytes, htext, hnone, Except.mapError]

end Entry

theorem entriesOf_ok_iff {lines : List (Bytes × Nat)} : entriesOf lines = .ok es ↔
    (∀ line ∈ lines.map Prod.fst,
      Text.isBlankLine line = true ∨ (Entry.ofBytes? line).isSome = true) ∧
    (lines.map Prod.fst).filterMap Entry.ofBytes? = es := by
  induction lines generalizing es with
  | nil => simp [entriesOf]
  | cons l lines ih =>
    obtain ⟨line, number⟩ := l
    simp only [entriesOf, bind_eq_ok_iff, Entry.ofBytes_ok_iff, ih, List.map_cons,
      List.forall_mem_cons, List.filterMap_cons]
    cases Entry.ofBytes? line <;> simp [pure, Except.pure, and_assoc]

/-- A corpus is accepted if all its lines are, and the entries of the lines are its entries. -/
theorem entries_ok_iff {bytes : Bytes} : entries bytes = .ok es ↔
    (∀ line ∈ Text.lines bytes,
      Text.isBlankLine line = true ∨ (Entry.ofBytes? line).isSome = true) ∧
    (Text.lines bytes).filterMap Entry.ofBytes? = es := by
  rw [entries, entriesOf_ok_iff, List.zipIdx_map_fst]

/-- The lines that are not blank. -/
def writtenLines (bytes : Bytes) : List Bytes :=
  (Text.lines bytes).filter fun line => !Text.isBlankLine line

/-- Blank lines have no entries. -/
theorem filterMap_writtenLines (bytes : Bytes) :
    (writtenLines bytes).filterMap Entry.ofBytes? =
      (Text.lines bytes).filterMap Entry.ofBytes? := by
  rw [writtenLines, List.filterMap_filter]
  refine List.filterMap_congr fun line _ => ?_
  cases hblank : Text.isBlankLine line with
  | false => simp
  | true => simp [Entry.ofBytes?_of_blank hblank]

/-- Neither the order of the lines nor blank lines among them matter to the entries. -/
theorem entries_of_perm {bytes bytes' : Bytes} (h : entries bytes = .ok es)
    (hperm : (writtenLines bytes').Perm (writtenLines bytes)) :
    ∃ es', entries bytes' = .ok es' ∧ es'.Perm es := by
  obtain ⟨haccepted, rfl⟩ := entries_ok_iff.1 h
  refine ⟨_, entries_ok_iff.2 ⟨fun line hline => ?_, rfl⟩, ?_⟩
  · cases hblank : Text.isBlankLine line with
    | true => exact .inl rfl
    | false =>
      have hmem : line ∈ writtenLines bytes :=
        hperm.mem_iff.1 (List.mem_filter.2 ⟨hline, by simp [hblank]⟩)
      have hsome := haccepted line (List.mem_filter.1 hmem).1
      simpa [hblank] using hsome
  · rw [← filterMap_writtenLines bytes', ← filterMap_writtenLines bytes]
    exact hperm.filterMap _

/-! ## Bags of entries -/

section
open scoped Exact

/-- How often the word occurs in the document by all the entries together. -/
def occurrences (es : List Entry) (document : Int) (word : Nat) : Nat :=
  ((es.filter fun e => e.document = document ∧ e.word = word).map Entry.count).sum

theorem occurrences_cons (e : Entry) (es : List Entry) (document : Int) (word : Nat) :
    occurrences (e :: es) document word =
      (if e.document = document ∧ e.word = word then e.count else 0) +
        occurrences es document word := by
  by_cases h : e.document = document ∧ e.word = word <;> simp [occurrences, h]

theorem occurrences_eq_zero {document : Int} {word : Nat}
    (h : ∀ e ∈ es, e.document = document → e.word ≠ word) : occurrences es document word = 0 := by
  have hnone : (es.filter fun e => e.document = document ∧ e.word = word) = [] := by
    simpa [List.filter_eq_nil_iff] using h
  rw [occurrences, hnone]
  rfl

theorem occurrences_perm (h : es.Perm es') (document : Int) (word : Nat) :
    occurrences es document word = occurrences es' document word :=
  ((h.filter _).map _).sum_eq

/-- The words of the document are those that the entries give it, ascending, each with its number of
occurrences. -/
structure Bag (es : List Entry) (d : Document) : Prop where
  ascending : d.words.Pairwise (· < ·)
  mem_words : ∀ w, w ∈ d.words ↔ ∃ e ∈ es, e.document = d.id ∧ e.word = w
  counts_eq : d.counts = d.words.map (occurrences es d.id)

namespace Bag

theorem perm (h : Bag es d) (hperm : es.Perm es') : Bag es' d where
  ascending := h.ascending
  mem_words w := by simp only [h.mem_words, hperm.mem_iff]
  counts_eq := by
    rw [h.counts_eq]
    exact List.map_congr_left fun w _ => occurrences_perm hperm d.id w

theorem unique (h : Bag es d) (h' : Bag es d') (hid : d.id = d'.id) : d = d' := by
  have hwords : d.words = d'.words := h.ascending.eq_of_mem_iff h'.ascending fun w => by
    rw [h.mem_words, h'.mem_words, hid]
  have hcounts : d.counts = d'.counts := by rw [h.counts_eq, h'.counts_eq, hwords, hid]
  cases d
  cases d'
  simp_all

/-- The bag of a document that no entry names. -/
theorem nil {document : Int} (h : ∀ e ∈ es, e.document ≠ document) : Bag es ⟨document, [], []⟩ where
  ascending := .nil
  mem_words w := by simpa using fun e he hid => absurd hid (h e he)
  counts_eq := rfl

/-- An entry of another document. -/
theorem cons_of_ne (h : Bag es d) (hid : e.document ≠ d.id) : Bag (e :: es) d where
  ascending := h.ascending
  mem_words w := by simp [h.mem_words, hid]
  counts_eq := by
    rw [h.counts_eq]
    refine List.map_congr_left fun w _ => ?_
    rw [occurrences_cons, if_neg fun hboth => hid hboth.1, Nat.zero_add]

/-- A word in front of all others. -/
theorem cons_word (h : Bag es d) (hid : e.document = d.id) (hlt : ∀ w ∈ d.words, e.word < w) :
    Bag (e :: es) ⟨d.id, e.word :: d.words, e.count :: d.counts⟩ where
  ascending := List.pairwise_cons.2 ⟨hlt, h.ascending⟩
  mem_words w := by simp [h.mem_words, hid, eq_comm]
  counts_eq := by
    have hfresh : occurrences es d.id e.word = 0 := by
      refine occurrences_eq_zero fun a ha haid hword => ?_
      exact Nat.lt_irrefl _ (hlt _ ((h.mem_words _).2 ⟨a, ha, haid, hword⟩))
    have hothers : d.words.map (occurrences (e :: es) d.id) = d.counts := by
      rw [h.counts_eq]
      refine List.map_congr_left fun w hw => ?_
      rw [occurrences_cons, if_neg fun hboth => Nat.ne_of_lt (hlt w hw) hboth.2, Nat.zero_add]
    simp [occurrences_cons, hid, hfresh, hothers]

/-- Another entry of the first word. -/
theorem add_count {document : Int} {words counts : List Nat} {count : Nat}
    (h : Bag es ⟨document, e.word :: words, count :: counts⟩) (hid : e.document = document) :
    Bag (e :: es) ⟨document, e.word :: words, (e.count + count) :: counts⟩ where
  ascending := h.ascending
  mem_words w := by
    rw [h.mem_words w]
    constructor
    · rintro ⟨a, ha, hboth⟩
      exact ⟨a, List.mem_cons_of_mem _ ha, hboth⟩
    · rintro ⟨a, ha, haid, rfl⟩
      rcases List.mem_cons.1 ha with rfl | ha
      · exact (h.mem_words _).1 List.mem_cons_self
      · exact ⟨a, ha, haid, rfl⟩
  counts_eq := by
    obtain ⟨hcount, hcounts⟩ := List.cons.inj h.counts_eq
    have hothers : words.map (occurrences (e :: es) document) = counts := by
      rw [hcounts]
      refine List.map_congr_left fun w hw => ?_
      have hne : e.word ≠ w := Nat.ne_of_lt (List.rel_of_pairwise_cons h.ascending hw)
      rw [occurrences_cons, if_neg fun hboth => hne hboth.2, Nat.zero_add]
    simp [occurrences_cons, hid, hcount, hothers]

theorem addInFront (h : Bag es d) (hid : e.document = d.id) (hle : ∀ a ∈ es, Entry.le e a = true) :
    Bag (e :: es) (d.addInFront e.word e.count) := by
  have hword : ∀ w ∈ d.words, e.word ≤ w := by
    intro w hw
    obtain ⟨a, ha, haid, rfl⟩ := (h.mem_words w).1 hw
    have hea := hle a ha
    simp [Entry.le, haid, hid] at hea
    exact hea
  obtain ⟨document, words, counts⟩ := d
  have hcounts : counts = words.map (occurrences es document) := h.counts_eq
  subst hcounts
  cases words with
  | nil => exact h.cons_word hid (by simp)
  | cons w words =>
    simp only [Document.addInFront, List.map_cons, Arithmetic.unsigned_exact]
    split
    · rename_i hw
      subst hw
      exact h.add_count hid
    · rename_i hw
      have hlt : e.word < w := Nat.lt_of_le_of_ne (hword w List.mem_cons_self) (Ne.symm hw)
      refine h.cons_word hid fun v hv => ?_
      rcases List.mem_cons.1 hv with rfl | hv
      · exact hlt
      · exact hlt.trans (List.rel_of_pairwise_cons h.ascending hv)

/-- The tokens of a bag are the occurrences of its words. -/
theorem count_tokens (h : Bag es d) (w : Nat) : d.tokens.count w = occurrences es d.id w := by
  have hcount : ∀ words : List Nat, words.Pairwise (· < ·) →
      (Document.tokens ⟨d.id, words, words.map (occurrences es d.id)⟩).count w =
        if w ∈ words then occurrences es d.id w else 0 := by
    intro words hwords
    induction words with
    | nil => simp [Document.tokens, Document.entries]
    | cons word words ih =>
      obtain ⟨hlt, hrest⟩ := List.pairwise_cons.1 hwords
      have hfresh : word ∉ words := fun hmem => Nat.lt_irrefl _ (hlt word hmem)
      simp only [List.map_cons, Document.tokens_cons, List.count_append, List.count_replicate,
        ih hrest, List.mem_cons]
      grind
  have hd : d = ⟨d.id, d.words, d.words.map (occurrences es d.id)⟩ := by rw [← h.counts_eq]
  rw [hd, hcount d.words h.ascending]
  split
  · rfl
  · rename_i hw
    refine (occurrences_eq_zero fun a ha haid hword => hw ?_).symm
    exact (h.mem_words w).2 ⟨a, ha, haid, hword⟩

end Bag

/-! ## Documents of entries -/

/-- The documents hold the entries: one document for each id that occurs, with ascending ids, and
each the bag of its entries. -/
structure Collects (es : List Entry) (ds : List Document) : Prop where
  ascending : (ds.map Document.id).Pairwise (· < ·)
  mem_ids : ∀ i, i ∈ ds.map Document.id ↔ ∃ e ∈ es, e.document = i
  bags : ∀ d ∈ ds, Bag es d

namespace Collects

theorem perm (h : Collects es ds) (hperm : es.Perm es') : Collects es' ds where
  ascending := h.ascending
  mem_ids i := by simp only [h.mem_ids, hperm.mem_iff]
  bags d hd := (h.bags d hd).perm hperm

theorem unique (h : Collects es ds) (h' : Collects es ds') : ds = ds' := by
  have hids : ds.map Document.id = ds'.map Document.id :=
    h.ascending.eq_of_mem_iff h'.ascending fun i => (h.mem_ids i).trans (h'.mem_ids i).symm
  have hlength : ds.length = ds'.length := by simpa using congrArg List.length hids
  refine List.ext_getElem hlength fun n hn hn' => ?_
  refine (h.bags _ (List.getElem_mem hn)).unique (h'.bags _ (List.getElem_mem hn')) ?_
  have hid := congrArg (·[n]?) hids
  simpa [hn, hn'] using hid

theorem nil : Collects [] [] where
  ascending := .nil
  mem_ids := by simp
  bags := by simp

/-- A document in front of all others. -/
theorem cons_document (h : Collects es ds) (hlt : ∀ i ∈ ds.map Document.id, e.document < i) :
    Collects (e :: es) (⟨e.document, [e.word], [e.count]⟩ :: ds) where
  ascending := List.pairwise_cons.2 ⟨hlt, h.ascending⟩
  mem_ids i := by
    simp only [List.map_cons, List.mem_cons, h.mem_ids i]
    grind
  bags d hd := by
    rcases List.mem_cons.1 hd with rfl | hd
    · have hnone : ∀ a ∈ es, a.document ≠ e.document := fun a ha =>
        (hlt _ ((h.mem_ids _).2 ⟨a, ha, rfl⟩)).ne'
      exact (Bag.nil hnone).cons_word rfl (by simp)
    · exact (h.bags d hd).cons_of_ne (hlt _ (List.mem_map_of_mem hd)).ne

/-- Another entry of the first document. -/
theorem addInFront (h : Collects es (d :: ds)) (hid : e.document = d.id)
    (hle : ∀ a ∈ es, Entry.le e a = true) :
    Collects (e :: es) (d.addInFront e.word e.count :: ds) where
  ascending := by simpa using h.ascending
  mem_ids i := by
    have hmem := h.mem_ids i
    simp only [List.map_cons, List.mem_cons, Document.id_addInFront] at hmem ⊢
    grind
  bags d' hd' := by
    rcases List.mem_cons.1 hd' with rfl | hd'
    · exact (h.bags d (by simp)).addInFront hid hle
    · have hlt : d.id < d'.id := List.rel_of_pairwise_cons h.ascending (List.mem_map_of_mem hd')
      exact (h.bags d' (by simp [hd'])).cons_of_ne (by omega)

/-- An entry that is not after those collected goes into the first document or in front of it. -/
theorem prepend (h : Collects es ds) (hle : ∀ a ∈ es, Entry.le e a = true) :
    Collects (e :: es) (prepend e ds) := by
  cases ds with
  | nil => exact h.cons_document (by simp)
  | cons d ds =>
    simp only [Corpus.prepend]
    split
    · rename_i hid
      exact h.addInFront hid.symm hle
    · rename_i hid
      refine h.cons_document fun i hi => ?_
      have hfirst : d.id ≤ i := by
        rcases List.mem_cons.1 hi with rfl | hi
        · exact Int.le_refl _
        · exact (List.rel_of_pairwise_cons h.ascending hi).le
      obtain ⟨a, ha, haid⟩ := (h.mem_ids d.id).1 (by simp)
      have hea := hle a ha
      simp only [Entry.le, Bool.or_eq_true, Bool.and_eq_true, decide_eq_true_eq, beq_iff_eq] at hea
      omega

end Collects

theorem Entry.le_trans (a b c : Entry) (hab : Entry.le a b = true) (hbc : Entry.le b c = true) :
    Entry.le a c = true := by
  simp only [Entry.le] at *
  grind

theorem Entry.le_total (a b : Entry) : (Entry.le a b || Entry.le b a) = true := by
  simp only [Entry.le]
  grind

/-- Sorted entries are collected from the last to the first. -/
theorem collects_foldr (hsorted : es.Pairwise fun a b => Entry.le a b = true) :
    Collects es (es.foldr prepend []) := by
  induction es with
  | nil => exact .nil
  | cons e es ih =>
    obtain ⟨hle, hrest⟩ := List.pairwise_cons.1 hsorted
    exact (ih hrest).prepend hle

theorem collects_documentsOf (es : List Entry) : Collects es (documentsOf es) :=
  (collects_foldr (List.pairwise_mergeSort Entry.le_trans Entry.le_total es)).perm
    (es.mergeSort_perm Entry.le)

/-- The order of the entries does not matter to the documents. -/
theorem documentsOf_perm (h : es.Perm es') : documentsOf es = documentsOf es' :=
  ((collects_documentsOf es).perm h).unique (collects_documentsOf es')

/-! ## Numbers of tokens -/

theorem sum_tokenCount_prepend (e : Entry) (ds : List Document) :
    ((prepend e ds).map Document.tokenCount).sum =
      e.count + (ds.map Document.tokenCount).sum := by
  unfold prepend
  split
  · split
    · simp [Document.tokenCount_addInFront, Nat.add_assoc]
    · simp [Document.tokenCount]
  · simp [Document.tokenCount]

theorem sum_tokenCount_documentsOf (es : List Entry) :
    ((documentsOf es).map Document.tokenCount).sum = (es.map Entry.count).sum := by
  have hfoldr : ∀ es : List Entry, ((es.foldr prepend []).map Document.tokenCount).sum =
      (es.map Entry.count).sum := by
    intro es
    induction es with
    | nil => rfl
    | cons e es ih => rw [List.foldr_cons, sum_tokenCount_prepend, ih, List.map_cons, List.sum_cons]
  rw [documentsOf, hfoldr]
  exact ((es.mergeSort_perm Entry.le).map _).sum_eq

/-- No count of the documents exceeds a limit just if no word occurs more often in a document. -/
theorem Collects.counts_le_iff {limit : Nat} (h : Collects es ds) :
    (∀ d ∈ ds, ∀ n ∈ d.counts, n ≤ limit) ↔
      ∀ document word, occurrences es document word ≤ limit := by
  constructor
  · intro hle document word
    by_cases hoccurs : ∃ e ∈ es, e.document = document ∧ e.word = word
    · obtain ⟨e, he, rfl, rfl⟩ := hoccurs
      obtain ⟨d, hd, hid⟩ := List.mem_map.1 ((h.mem_ids e.document).2 ⟨e, he, rfl⟩)
      have hbag := h.bags d hd
      refine hle d hd _ ?_
      rw [hbag.counts_eq, ← hid]
      exact List.mem_map_of_mem ((hbag.mem_words e.word).2 ⟨e, he, hid.symm, rfl⟩)
    · rw [occurrences_eq_zero fun e he hid hword => hoccurs ⟨e, he, hid, hword⟩]
      exact Nat.zero_le _
  · intro hle d hd n hn
    rw [(h.bags d hd).counts_eq] at hn
    obtain ⟨w, -, rfl⟩ := List.mem_map.1 hn
    exact hle d.id w

end

/-! ## Room for the sums -/

section
variable [Arithmetic]

/-- There is room for how often any word occurs in any document. -/
def OccurrencesHaveRoom (es : List Entry) : Prop :=
  ∀ document word, unsigned 32 (occurrences es document word) = occurrences es document word

/-- There is if there is room for all occurrences together. -/
theorem OccurrencesHaveRoom.of_sum
    (h : unsigned 32 (es.map Entry.count).sum = (es.map Entry.count).sum) :
    OccurrencesHaveRoom es := fun _ _ =>
  Arithmetic.unsigned_eq_self_mono h
    ((List.filter_sublist.map _).sum_le_sum fun _ _ => Nat.zero_le _)

/-- All numbers of occurrence have room. -/
def HasRoom (ds : List Document) : Prop := ∀ d ∈ ds, ∀ n ∈ d.counts, unsigned 32 n = n

/-- The counts of a bag are numbers of occurrences. -/
theorem OccurrencesHaveRoom.hasRoom (h : OccurrencesHaveRoom es) (hds : Collects es ds) :
    HasRoom ds := by
  intro d hd n hn
  rw [(hds.bags d hd).counts_eq] at hn
  obtain ⟨w, -, rfl⟩ := List.mem_map.1 hn
  exact h d.id w

/-- A count that is added to one is part of what comes of it. -/
theorem addInFront_of_room {d : Document} {word count : Nat}
    (h : ∀ n ∈ (@Document.addInFront .exact d word count).counts, unsigned 32 n = n) :
    d.addInFront word count = @Document.addInFront .exact d word count ∧
      ∀ n ∈ d.counts, unsigned 32 n = n := by
  obtain ⟨id, words, counts⟩ := d
  cases words with
  | nil => exact ⟨rfl, (List.forall_mem_cons.1 h).2⟩
  | cons w words =>
    cases counts with
    | nil => exact ⟨rfl, List.forall_mem_nil _⟩
    | cons c counts =>
      by_cases hw : w = word
      · simp only [Document.addInFront, if_pos hw, Arithmetic.unsigned_exact] at h ⊢
        obtain ⟨hsum, hcounts⟩ := List.forall_mem_cons.1 h
        exact ⟨by rw [hsum], List.forall_mem_cons.2
          ⟨Arithmetic.unsigned_eq_self_mono hsum (Nat.le_add_left c count), hcounts⟩⟩
      · simp only [Document.addInFront, if_neg hw] at h ⊢
        exact ⟨trivial, (List.forall_mem_cons.1 h).2⟩

theorem prepend_of_room {e : Entry} (h : HasRoom (@prepend .exact e ds)) :
    prepend e ds = @prepend .exact e ds ∧ HasRoom ds := by
  cases ds with
  | nil => exact ⟨rfl, List.forall_mem_nil _⟩
  | cons d ds =>
    by_cases hid : d.id = e.document
    · simp only [prepend, if_pos hid] at h ⊢
      obtain ⟨hfirst, hrest⟩ := List.forall_mem_cons.1 h
      obtain ⟨heq, hd⟩ := addInFront_of_room hfirst
      exact ⟨by rw [heq], List.forall_mem_cons.2 ⟨hd, hrest⟩⟩
    · simp only [prepend, if_neg hid] at h ⊢
      exact ⟨trivial, (List.forall_mem_cons.1 h).2⟩

/-- As long as the sums of the lines have room, every arithmetic reads the same documents. -/
theorem read_of_room {bytes : Bytes} (h : @read .exact bytes = .ok ds)
    (hroom : HasRoom ds) : read bytes = .ok ds := by
  have hfold : ∀ es : List Entry, HasRoom (es.foldr (@prepend .exact) []) →
      es.foldr prepend [] = es.foldr (@prepend .exact) [] := by
    intro es hes
    induction es with
    | nil => rfl
    | cons e es ih =>
      obtain ⟨heq, hrest⟩ := prepend_of_room hes
      rw [List.foldr_cons, List.foldr_cons, ih hrest, heq]
  unfold read at h ⊢
  cases hentries : entries bytes with
  | error e =>
    rw [hentries] at h
    cases h
  | ok es =>
    rw [hentries] at h
    cases h
    exact congrArg Except.ok (hfold _ hroom)

/-- What is read is then what the exact arithmetic reads, the documents that collect the entries. -/
theorem read_exact {bytes : Bytes} (h : read bytes = .ok ds)
    (hroom : OccurrencesHaveRoom ((Text.lines bytes).filterMap Entry.ofBytes?)) :
    @read .exact bytes = .ok ds ∧ HasRoom ds := by
  obtain ⟨es, hentries⟩ : ∃ es, entries bytes = .ok es := by
    unfold read at h
    cases hentries : entries bytes <;> simp_all [Except.map]
  have hexact : @read .exact bytes = .ok (@documentsOf .exact es) :=
    congrArg (Except.map (@documentsOf .exact)) hentries
  rw [(entries_ok_iff.1 hentries).2] at hroom
  have hds := hroom.hasRoom (collects_documentsOf es)
  have hread := read_of_room hexact hds
  rw [h] at hread
  cases hread
  exact ⟨hexact, hds⟩

/-! ## A corpus that is read -/

/-- Each line of an accepted corpus is blank or is an entry, and if the sums have room, the
documents are the only ones that collect these entries. No token is lost or added, in a document or
over all. The numbers of occurrence have 32 bits just if the sums of the lines have. Any other
corpus with the same lines, in whatever order and with whatever blank lines, says the same. -/
theorem read_collects {bytes : Bytes} (h : read bytes = .ok ds)
    (hroom : OccurrencesHaveRoom ((Text.lines bytes).filterMap Entry.ofBytes?)) :
    let es := (Text.lines bytes).filterMap Entry.ofBytes?
    (∀ line ∈ Text.lines bytes, Text.isBlankLine line = true ∨
      ∃ e, Entry.ofBytes? line = some e ∧ e.IsWritten line) ∧
    (∀ ds', Collects es ds' ↔ ds' = ds) ∧
    (∀ d ∈ ds, ∀ w, d.tokens.count w = occurrences es d.id w) ∧
    (ds.map Document.tokenCount).sum = (es.map Entry.count).sum ∧
    ((∀ d ∈ ds, ∀ n ∈ d.counts, n ≤ Decimal.maxOfBits 32) ↔
      ∀ document word, occurrences es document word ≤ Decimal.maxOfBits 32) ∧
    ∀ bytes', (writtenLines bytes').Perm (writtenLines bytes) → read bytes' = .ok ds := by
  intro es
  obtain ⟨hexact, hds⟩ := read_exact h hroom
  obtain ⟨es', hentries, rfl⟩ :
      ∃ es', entries bytes = .ok es' ∧ @documentsOf .exact es' = ds := by
    unfold read at hexact
    cases hentries : entries bytes <;> simp_all [Except.map]
  obtain ⟨haccepted, rfl⟩ := entries_ok_iff.1 hentries
  have hcollects : Collects es (@documentsOf .exact es) := collects_documentsOf es
  refine ⟨fun line hline => ?_, fun ds' => ⟨fun hds' => hds'.unique hcollects, ?_⟩,
    fun d hd => (hcollects.bags d hd).count_tokens, sum_tokenCount_documentsOf es,
    hcollects.counts_le_iff, fun bytes' hperm => ?_⟩
  · refine (haccepted line hline).imp_right fun hsome => ?_
    obtain ⟨e, he⟩ := Option.isSome_iff_exists.1 hsome
    exact ⟨e, he, Entry.ofBytes?_eq_some_iff.1 he⟩
  · rintro rfl
    exact hcollects
  · obtain ⟨es', hes', hentriesPerm⟩ := entries_of_perm hentries hperm
    rw [← documentsOf_perm hentriesPerm] at hds ⊢
    exact read_of_room (congrArg (Except.map (@documentsOf .exact)) hes') hds

end

/-- Two documents with their lines mixed, a word on two lines and a blank line between. -/
theorem read_mixed_lines :
    let bytes := Text.encode "3 1 2\n\n1 0 1\n3 0 4\n1 2 1\n3 1 1\n"
    let ds := [⟨1, [0, 2], [1, 1]⟩, ⟨3, [0, 1], [4, 3]⟩]
    read bytes = .ok ds ∧ OccurrencesHaveRoom ((Text.lines bytes).filterMap Entry.ofBytes?) ∧
      (((Text.lines bytes).filterMap Entry.ofBytes?).map Entry.count).sum = 9 ∧
      read (Text.encode "3 0 4\n1 0 1\n1 2 1\n3 1 1\n \n3 1 2") = .ok ds := by
  have hread : read (Text.encode "3 1 2\n\n1 0 1\n3 0 4\n1 2 1\n3 1 1\n") =
      .ok [⟨1, [0, 2], [1, 1]⟩, ⟨3, [0, 1], [4, 3]⟩] := by cbv
  have hperm : (writtenLines (Text.encode "3 0 4\n1 0 1\n1 2 1\n3 1 1\n \n3 1 2")).Perm
      (writtenLines (Text.encode "3 1 2\n\n1 0 1\n3 0 4\n1 2 1\n3 1 1\n")) := by decide +kernel
  have hroom : OccurrencesHaveRoom ((Text.lines (Text.encode
      "3 1 2\n\n1 0 1\n3 0 4\n1 2 1\n3 1 1\n")).filterMap Entry.ofBytes?) :=
    .of_sum (by decide +kernel)
  obtain ⟨-, -, -, htotal, -, hlines⟩ := read_collects hread hroom
  exact ⟨hread, hroom, htotal.symm, hlines _ hperm⟩

end Corpus

end TopicModel
