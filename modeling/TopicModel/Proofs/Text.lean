import Mathlib
import TopicModel.Text.Blank
import TopicModel.Text.Lines

/-!
# Texts, lines and fields

`decode?` reads exactly the encodings of texts (`decode?_eq_some_iff`). `lines` takes a file apart
at its line feeds, `fields` a line at its blanks: `Lined` says what the lines of a file are,
`Separated` what the fields of a line are, and these are what is found (`lines_eq_iff`,
`fields_eq_iff`).
-/

namespace TopicModel.Text

/-! ## Encodings -/

theorem decode?_eq_some_iff {bytes : Bytes} {text : String} :
    decode? bytes = some text ↔ encode text = bytes := by
  unfold decode? encode String.fromUTF8?
  constructor
  · intro h
    split at h
    · cases h
      rfl
    · cases h
  · rintro rfl
    have hvalid : (⟨text.toUTF8.data.toList.toArray⟩ : ByteArray) = text.toByteArray := rfl
    rw [dif_pos (hvalid ▸ text.isValidUTF8)]
    rfl

theorem encode_inj {text text' : String} : encode text = encode text' ↔ text = text' := by
  refine ⟨fun h => ?_, congrArg encode⟩
  have hdecode := decode?_eq_some_iff.2 h
  rw [decode?_eq_some_iff.2 rfl] at hdecode
  exact (Option.some.inj hdecode).symm

/-- Bytes of ASCII are characters each. -/
theorem encode_ofList_ascii {bytes : Bytes} (h : ∀ b ∈ bytes, b < 0x80) :
    encode (String.ofList (bytes.map Char.ofUInt8)) = bytes := by
  rw [encode, String.toUTF8_eq_toByteArray, String.toByteArray_ofList]
  induction bytes with
  | nil => rfl
  | cons b bytes ih =>
    obtain ⟨hb, h⟩ := List.forall_mem_cons.1 h
    have hsize : (Char.ofUInt8 b).utf8Size = 1 := by
      rw [Char.utf8Size_eq_one_iff]
      have hlow : b.toNat < 128 := UInt8.lt_iff_toNat_lt.1 hb
      simp [Char.ofUInt8, UInt32.le_iff_toNat_le]
      omega
    have hbyte : (Char.ofUInt8 b).val.toUInt8 = b := by simp [Char.ofUInt8]
    rw [List.map_cons, List.utf8Encode_cons, ByteArray.toList_data_append, ih h,
      List.utf8Encode_singleton, String.utf8EncodeChar_eq_singleton hsize, hbyte]
    rfl

/-! ## Lines -/

theorem lines_nil : lines [] = [] := rfl

/-- A line ends at the first line feed. -/
theorem lines_cons {line : Bytes} (h : lineFeed ∉ line) (rest : Bytes) :
    lines (line ++ lineFeed :: rest) = dropReturn line :: lines rest := by
  have hpiece : ∀ b ∈ line, (b == lineFeed) = false := fun b hb =>
    beq_eq_false_iff_ne.2 fun heq => h (heq ▸ hb)
  have hsplit : (line ++ lineFeed :: rest).splitOn lineFeed =
      line :: rest.splitOn lineFeed := by
    rw [List.splitOn_eq_splitOnP, List.splitOn_eq_splitOnP]
    exact List.splitOnP_append_cons_of_forall_mem hpiece lineFeed rfl rest
  obtain ⟨piece, pieces, hrest⟩ : ∃ piece pieces, rest.splitOn lineFeed = piece :: pieces := by
    rw [List.splitOn_eq_splitOnP]
    exact List.exists_cons_of_ne_nil (List.splitOnP_ne_nil _ rest)
  simp only [lines, hsplit, hrest, List.getLast?_cons_cons]
  rfl

/-- Bytes without a line feed are a line as they are. -/
theorem lines_last {line : Bytes} (hne : line ≠ []) (h : lineFeed ∉ line) :
    lines line = [line] := by
  have hpiece : ∀ b ∈ line, (b == lineFeed) = false := fun b hb =>
    beq_eq_false_iff_ne.2 fun heq => h (heq ▸ hb)
  have hsplit : line.splitOn lineFeed = [line] := by
    rw [List.splitOn_eq_splitOnP]
    exact List.splitOnP_eq_singleton hpiece
  simp [lines, hsplit, hne]

/-- The file has these lines: one up to each line feed, without a carriage return before it, and
one of the bytes after the last line feed, if there are any. -/
inductive Lined : Bytes → List Bytes → Prop
  | nil : Lined [] []
  | last {line : Bytes} : line ≠ [] → lineFeed ∉ line → Lined line [line]
  | cons {line rest : Bytes} {ls : List Bytes} : lineFeed ∉ line → Lined rest ls →
      Lined (line ++ lineFeed :: rest) (dropReturn line :: ls)

theorem lined_lines (bytes : Bytes) : Lined bytes (lines bytes) := by
  by_cases h : lineFeed ∈ bytes
  · obtain ⟨line, rest, hbytes, hline⟩ := List.eq_append_cons_of_mem h
    have hshorter : rest.length < bytes.length := by simp [hbytes]; omega
    rw [hbytes, lines_cons hline]
    exact .cons hline (lined_lines rest)
  · by_cases hne : bytes = []
    · subst hne
      exact .nil
    · rw [lines_last hne h]
      exact .last hne h
termination_by bytes.length

theorem lines_eq_iff {bytes : Bytes} {ls : List Bytes} : lines bytes = ls ↔ Lined bytes ls := by
  constructor
  · rintro rfl
    exact lined_lines bytes
  · intro h
    induction h with
    | nil => exact lines_nil
    | last hne hline => exact lines_last hne hline
    | cons hline _ ih => rw [lines_cons hline, ih]

/-! ## Fields -/

/-- The line is these fields with blanks around and between them. -/
inductive Separated : List Char → List (List Char) → Prop
  | blank {cs : List Char} : (∀ c ∈ cs, isBlank c = true) → Separated cs []
  | field {before field rest : List Char} {fields : List (List Char)} :
      (∀ c ∈ before, isBlank c = true) → field ≠ [] → (∀ c ∈ field, isBlank c = false) →
      (∀ c ∈ rest.head?, isBlank c = true) → Separated rest fields →
      Separated (before ++ field ++ rest) (field :: fields)

theorem fields_of_blank {c : Char} (h : isBlank c = true) (cs : List Char) :
    fields (c :: cs) = fields cs := by
  unfold fields
  rw [List.splitOnP_cons_eq_if_modifyHead, if_pos h]
  rfl

theorem fields_append_of_blank {before : List Char} (h : ∀ c ∈ before, isBlank c = true)
    (cs : List Char) : fields (before ++ cs) = fields cs := by
  induction before with
  | nil => rfl
  | cons c before ih =>
    obtain ⟨hc, h⟩ := List.forall_mem_cons.1 h
    rw [List.cons_append, fields_of_blank hc, ih h]

/-- A field in front ends at a blank or with the line. -/
theorem fields_append {field rest : List Char} (hne : field ≠ [])
    (hfield : ∀ c ∈ field, isBlank c = false) (hrest : ∀ c ∈ rest.head?, isBlank c = true) :
    fields (field ++ rest) = field :: fields rest := by
  have hkeep : (!field.isEmpty) = true := by simpa using hne
  cases rest with
  | nil =>
    rw [List.append_nil, fields, List.splitOnP_eq_singleton hfield]
    simp [fields, hkeep]
  | cons c rest =>
    have hc : isBlank c = true := hrest c rfl
    rw [fields_of_blank hc, fields, List.splitOnP_append_cons_of_forall_mem hfield c hc]
    exact List.filter_cons_of_pos hkeep

theorem Separated.fields_eq {cs : List Char} {fs : List (List Char)} (h : Separated cs fs) :
    fields cs = fs := by
  induction h with
  | @blank cs hblank =>
    have hall := fields_append_of_blank hblank []
    rwa [List.append_nil] at hall
  | field hbefore hne hfield hrest _ ih =>
    rw [List.append_assoc, fields_append_of_blank hbefore, fields_append hne hfield hrest, ih]

/-- Every line has fields. -/
theorem exists_separated (cs : List Char) : ∃ fs, Separated cs fs := by
  induction cs with
  | nil => exact ⟨[], .blank (List.forall_mem_nil _)⟩
  | cons c cs ih =>
    obtain ⟨fs, h⟩ := ih
    cases hc : isBlank c with
    | true =>
      cases h with
      | blank hblank => exact ⟨[], .blank (List.forall_mem_cons.2 ⟨hc, hblank⟩)⟩
      | field hbefore hne hfield hrest h =>
        exact ⟨_, .field (List.forall_mem_cons.2 ⟨hc, hbefore⟩) hne hfield hrest h⟩
    | false =>
      by_cases hhead : ∀ d ∈ cs.head?, isBlank d = true
      · have hown : Separated ([] ++ [c] ++ cs) ([c] :: fs) :=
          .field (List.forall_mem_nil _) (List.cons_ne_nil c []) (List.forall_mem_singleton.2 hc)
            hhead h
        exact ⟨_, hown⟩
      · -- the line begins with a field, which the character makes longer
        cases h with
        | blank hblank =>
          exact absurd (fun d hd => hblank d (List.mem_of_mem_head? hd)) hhead
        | @field before field rest fs hbefore hne hfield hrest h =>
          cases before with
          | nil =>
            have hlonger : Separated ([] ++ (c :: field) ++ rest) ((c :: field) :: fs) :=
              .field (List.forall_mem_nil _) (List.cons_ne_nil c field)
                (List.forall_mem_cons.2 ⟨hc, hfield⟩) hrest h
            exact ⟨_, hlonger⟩
          | cons d before =>
            have hd : isBlank d = true := hbefore d List.mem_cons_self
            exact absurd (fun e he => Option.mem_some.1 he ▸ hd) hhead

theorem fields_eq_iff {cs : List Char} {fs : List (List Char)} :
    fields cs = fs ↔ Separated cs fs := by
  constructor
  · rintro rfl
    obtain ⟨fs, h⟩ := exists_separated cs
    rwa [h.fields_eq]
  · exact Separated.fields_eq

end TopicModel.Text
