import Mathlib
import TopicModel.Json.Builder
import TopicModel.Proofs.JsonNumbers

/-!
# Reading what was written

`Value.tokens` are the tokens of a value in their order. The text of a value, in any layout that
puts only blanks between them, is cut into these tokens (`lex?_written`), and from them the value is
built again (`ofTokens?_tokens`): `Value.parse?_written`.

A number or a word has no end of its own: the lexer still stands in it when the next byte comes.
`Lexer.After` allows for this, `Lexer.Between` does not, and `Lexes` says between which of the two
some bytes lead. A token that may follow a number begins with a byte that ends it, and behind such a
token or a blank the lexer is between tokens again.
-/

namespace TopicModel.Json

variable {bytes bytes' : Bytes} {ts ts' : List Token} {t : Token} {b : UInt8}

/-! ## Tokens -/

namespace Value

mutual

/-- The tokens of a value. -/
def tokens : Value → List Token
  | null => [.null]
  | boolean b => [.boolean b]
  | number n => [.number n]
  | quoted q => [.quoted q]
  | array [] => [.openBracket, .closeBracket]
  | array (v :: vs) => .openBracket :: (tokens v ++ itemsTokens vs ++ [.closeBracket])
  | object [] => [.openBrace, .closeBrace]
  | object (m :: ms) => .openBrace :: (memberTokens m ++ membersTokens ms ++ [.closeBrace])

/-- The tokens of the items of an array after the first. -/
def itemsTokens : List Value → List Token
  | [] => []
  | v :: vs => .comma :: (tokens v ++ itemsTokens vs)

def memberTokens : Quoted × Value → List Token
  | (name, v) => .quoted name :: .colon :: tokens v

/-- The tokens of the members of an object after the first. -/
def membersTokens : List (Quoted × Value) → List Token
  | [] => []
  | m :: ms => .comma :: (memberTokens m ++ membersTokens ms)

end

end Value

/-- A byte of ASCII that is no control character. -/
def isPrinted (b : UInt8) : Bool := 0x20 ≤ b && b ≤ 0x7e

/-- The token is written in printed bytes without numeric escapes: a number is one of JSON, a string
consists of such bytes. -/
def Token.Plain : Token → Prop
  | .number n => n.Sound
  | .quoted content => ∀ p ∈ content, ∃ b, p = .byte b ∧ isPrinted b = true
  | _ => True

/-- The value is written in plain tokens. -/
def Value.Plain (v : Value) : Prop := ∀ t ∈ v.tokens, t.Plain

/-! ## Lexing -/

namespace Lexer

variable {P Q R : List Token → Lexer → Prop} {l : Lexer}

/-- The lexer has read the tokens, latest first, and is in none. -/
def Between (ts : List Token) (l : Lexer) : Prop := l = ⟨ts, .between⟩

/-- The lexer has read the tokens, latest first. If the last of them is bare, the lexer may not yet
know that it ends. -/
inductive After : List Token → Lexer → Prop
  | between (ts : List Token) : After ts ⟨ts, .between⟩
  | bare {ts : List Token} {run : List UInt8} {t : Token} :
      word? (run.reverse.map Char.ofUInt8) = some t → After (t :: ts) ⟨ts, .bare run⟩

/-- The bytes are read as the tokens, from any lexer of the one kind to one of the other. -/
def Lexes (P : List Token → Lexer → Prop) (bytes : Bytes) (ts : List Token)
    (Q : List Token → Lexer → Prop) : Prop :=
  ∀ before l, P before l → ∃ l', bytes.foldlM feed l = some l' ∧ Q (ts.reverse ++ before) l'

theorem Between.after (h : Between ts l) : After ts l := by
  cases h
  exact .between ts

theorem endBare_of_word {run : List UInt8} (h : word? (run.reverse.map Char.ofUInt8) = some t) :
    endBare l run = some (l.push t) := by
  rw [endBare, h]
  rfl

/-- A byte that is not bare ends the last token. -/
theorem After.feed (h : After ts l) (hb : isBare b = false) :
    l.feed b = Lexer.start ⟨ts, .between⟩ b := by
  cases h with
  | between => rfl
  | bare hword => simp [Lexer.feed, hb, endBare_of_word hword, push]

theorem After.finish (h : After ts l) : l.finish = some ts.reverse := by
  cases h with
  | between => rfl
  | bare hword => simp only [Lexer.finish, endBare_of_word hword, Option.map_some, push]

namespace Lexes

theorem nil : Lexes P [] [] P := fun _ l h => ⟨l, rfl, h⟩

theorem append (h : Lexes P bytes ts Q) (h' : Lexes Q bytes' ts' R) :
    Lexes P (bytes ++ bytes') (ts ++ ts') R := by
  intro before l hl
  obtain ⟨l₁, hrun₁, hl₁⟩ := h before l hl
  obtain ⟨l₂, hrun₂, hl₂⟩ := h' _ l₁ hl₁
  refine ⟨l₂, ?_, ?_⟩
  · rw [List.foldlM_append, hrun₁]
    exact hrun₂
  · rwa [List.reverse_append, List.append_assoc]

theorem after (h : Lexes P bytes ts Between) : Lexes P bytes ts After := fun before l hl =>
  have ⟨l', hrun, hl'⟩ := h before l hl
  ⟨l', hrun, hl'.after⟩

theorem between (h : Lexes After bytes ts Q) : Lexes Between bytes ts Q := fun before l hl =>
  h before l hl.after

/-- What stands in brackets may end with a number. -/
theorem enclosed {t t' : Token} (hopen : Lexes After t.written [t] Between)
    (hclose : Lexes After t'.written [t'] Between) (h : Lexes Between bytes ts After) :
    Lexes Between (t.written ++ bytes ++ t'.written) (t :: (ts ++ [t'])) After :=
  ((hopen.append h).append hclose).between.after

end Lexes

theorem isBare_of_isBlank (h : isBlank b = true) : isBare b = false := by
  simp only [isBlank, Bool.or_eq_true, beq_iff_eq] at h
  obtain ((rfl | rfl) | rfl) | rfl := h <;> decide

theorem lexes_blank (h : ∀ b ∈ bytes, isBlank b = true) : Lexes Between bytes [] Between := by
  induction bytes with
  | nil => exact .nil
  | cons b bytes ih =>
    obtain ⟨hb, h⟩ := List.forall_mem_cons.1 h
    have hfirst : Lexes Between [b] [] Between := by
      rintro before l rfl
      exact ⟨_, by simp [feed, start, hb], rfl⟩
    exact hfirst.append (ih h)

theorem lexes_blank_after (h : ∀ b ∈ bytes, isBlank b = true) : Lexes After bytes [] After := by
  cases bytes with
  | nil => exact .nil
  | cons b bytes =>
    obtain ⟨hb, h⟩ := List.forall_mem_cons.1 h
    have hfirst : Lexes After [b] [] Between := by
      intro before l hl
      exact ⟨⟨before, .between⟩, by simp [hl.feed (isBare_of_isBlank hb), start, hb], rfl⟩
    exact (hfirst.append (lexes_blank h)).after

theorem lexes_punctuation (hwritten : t.written = [b]) (h : punctuation? b = some t) :
    Lexes After t.written [t] Between := by
  have hstart : isBare b = false ∧ isBlank b = false ∧ b ≠ quote := by
    unfold punctuation? at h
    split at h <;> first | decide | cases h
  intro before l hl
  refine ⟨⟨t :: before, .between⟩, ?_, rfl⟩
  simp [hwritten, hl.feed hstart.1, start, hstart, h, push]

/-- A character that is bare and is its own byte. -/
def isBareChar (c : Char) : Bool := Char.ofUInt8 c.toUInt8 == c && isBare c.toUInt8

theorem isBareChar_iff {c : Char} :
    isBareChar c = true ↔ Char.ofUInt8 c.toUInt8 = c ∧ isBare c.toUInt8 = true := by
  rw [isBareChar, Bool.and_eq_true, beq_iff_eq]

theorem map_ofUInt8_ascii {run : List Char} (h : run.all isBareChar = true) :
    (ascii run).map Char.ofUInt8 = run := by
  have hsame : run.map (Char.ofUInt8 ∘ Char.toUInt8) = run.map id :=
    List.map_congr_left fun c hc => (isBareChar_iff.1 (List.all_eq_true.1 h c hc)).1
  rw [ascii, List.map_map, hsame, List.map_id]

theorem feed_bare {c : Char} (h : isBareChar c = true) (ts : List Token) :
    feed ⟨ts, .between⟩ c.toUInt8 = some ⟨ts, .bare [c.toUInt8]⟩ := by
  have hbare := (isBareChar_iff.1 h).2
  have hblank : isBlank c.toUInt8 = false := by
    refine Bool.eq_false_iff.2 fun hblank => ?_
    rw [isBare_of_isBlank hblank] at hbare
    cases hbare
  have hquote : c.toUInt8 ≠ quote := by
    intro hquote
    rw [hquote] at hbare
    cases hbare
  simp [feed, start, hblank, hquote, hbare]

theorem foldlM_feed_bare {cs : List Char} (h : cs.all isBareChar = true) (ts : List Token)
    (run : List UInt8) : (ascii cs).foldlM feed ⟨ts, .bare run⟩ =
      some ⟨ts, .bare ((ascii cs).reverse ++ run)⟩ := by
  induction cs generalizing run with
  | nil => rfl
  | cons c cs ih =>
    obtain ⟨hc, hcs⟩ := Bool.and_eq_true_iff.1 h
    have hbare := (isBareChar_iff.1 hc).2
    simp only [ascii, List.map_cons, List.foldlM_cons, feed, hbare]
    simpa [ascii] using ih hcs (c.toUInt8 :: run)

/-- A run of bare characters is read as the word or number that it is. -/
theorem lexes_bare {run : List Char} (hne : run ≠ []) (hrun : run.all isBareChar = true)
    (hword : word? run = some t) : Lexes Between (ascii run) [t] After := by
  have hback := map_ofUInt8_ascii hrun
  obtain ⟨c, cs, rfl⟩ := List.exists_cons_of_ne_nil hne
  obtain ⟨hc, hcs⟩ := Bool.and_eq_true_iff.1 hrun
  rintro before l rfl
  refine ⟨⟨before, .bare ((ascii cs).reverse ++ [c.toUInt8])⟩, ?_, .bare ?_⟩
  · rw [ascii, List.map_cons, List.foldlM_cons, feed_bare hc]
    exact foldlM_feed_bare hcs before [c.toUInt8]
  · have hread : ((ascii cs).reverse ++ [c.toUInt8]).reverse = ascii (c :: cs) := by
      rw [List.reverse_append, List.reverse_reverse]
      rfl
    rw [hread, hback, hword]

/-- The content of a string is read piece by piece. -/
theorem lexes_content {content : Quoted} (h : (Token.quoted content).Plain) (ts : List Token)
    (pieces : List Piece) : (content.flatMap Piece.written).foldlM feed ⟨ts, .inQuotes pieces⟩ =
      some ⟨ts, .inQuotes (content.reverse ++ pieces)⟩ := by
  induction content generalizing pieces with
  | nil => rfl
  | cons p content ih =>
    obtain ⟨⟨b, rfl, hb⟩, hcontent⟩ := List.forall_mem_cons.1 h
    have hpiece : (Piece.byte b).written.foldlM feed ⟨ts, .inQuotes pieces⟩ =
        some ⟨ts, .inQuotes (.byte b :: pieces)⟩ := by
      by_cases hescape : b = quote ∨ b = backslash
      · obtain rfl | rfl := hescape <;> rfl
      · obtain ⟨hquote, hbackslash⟩ := not_or.1 hescape
        have hprinted : ¬ b < 0x20 := by
          simp only [isPrinted, Bool.and_eq_true, decide_eq_true_eq] at hb
          exact UInt8.not_lt.2 hb.1
        simp [Piece.written, feed, hquote, hbackslash, hprinted]
    rw [List.flatMap_cons, List.foldlM_append, hpiece]
    simpa using ih hcontent (.byte b :: pieces)

theorem lexes_quoted {content : Quoted} (h : (Token.quoted content).Plain) :
    Lexes Between (Token.quoted content).written [.quoted content] Between := by
  rintro before l rfl
  refine ⟨⟨.quoted content :: before, .between⟩, ?_, rfl⟩
  have hopen : feed ⟨before, .between⟩ quote = some ⟨before, .inQuotes []⟩ := rfl
  simp only [Token.written, List.cons_append, List.foldlM_cons, List.foldlM_append, hopen,
    Option.bind_eq_bind, Option.bind_some, lexes_content h]
  simp [feed, push]

theorem isBareChar_of_isDigit {c : Char} (h : c.isDigit = true) : isBareChar c = true := by
  obtain ⟨hlow, hhigh⟩ := Char.isDigit_iff_toNat.1 h
  rw [← Char.ofNat_toNat c]
  generalize c.toNat = n at hlow hhigh
  have hlow : 48 ≤ n := hlow
  have hhigh : n ≤ 57 := hhigh
  interval_cases n <;> decide

theorem all_isBareChar_text {n : Number} (h : n.Sound) : n.text.all isBareChar = true := by
  refine List.all_eq_true.2 fun c hc => ?_
  rcases Number.mem_text h hc with hdigit | hsign
  · exact isBareChar_of_isDigit hdigit
  · simp only [List.mem_cons, List.not_mem_nil, or_false] at hsign
    obtain rfl | rfl | rfl := hsign <;> decide

theorem lexes_number {n : Number} (h : n.Sound) :
    Lexes Between (Token.number n).written [.number n] After := by
  -- a literal is none of the three words, by its first character
  have hother : ∀ c cs, c ∈ ['n', 't', 'f'] → n.text ≠ c :: cs := by
    intro c cs hc htext
    have hchar := Number.mem_text h (htext ▸ List.mem_cons_self : c ∈ n.text)
    simp only [List.mem_cons, List.not_mem_nil, or_false] at hc
    obtain rfl | rfl | rfl := hc <;> exact absurd hchar (by decide)
  have hword : word? n.text = some (.number n) := by
    rw [word?, if_neg (hother 'n' _ (by decide)), if_neg (hother 't' _ (by decide)),
      if_neg (hother 'f' _ (by decide)), Number.parse?_text h]
    rfl
  have hne : n.text ≠ [] := by
    rw [Number.text_eq]
    simp [h.nonempty]
  exact lexes_bare hne (all_isBareChar_text h) hword

end Lexer

/-! ## Layouts -/

/-- The layout puts only blanks between tokens. -/
structure Layout.Blank (l : Layout) : Prop where
  lineBreak : ∀ depth, ∀ b ∈ l.lineBreak depth, isBlank b = true
  afterColon : ∀ b ∈ l.afterColon, isBlank b = true

@[simp] theorem Layout.lineBreak_compact (depth : Nat) : Layout.compact.lineBreak depth = [] := rfl

@[simp] theorem Layout.afterColon_compact : Layout.compact.afterColon = [] := rfl

theorem Layout.blank_compact : Layout.compact.Blank where
  lineBreak _ := List.forall_mem_nil _
  afterColon := List.forall_mem_nil _

theorem Layout.blank_indented : Layout.indented.Blank where
  lineBreak depth := by
    refine List.forall_mem_cons.2 ⟨by decide, fun b hb => ?_⟩
    rw [List.eq_of_mem_replicate hb]
    decide
  afterColon := List.forall_mem_singleton.2 (by decide)

namespace Value

open Lexer

variable {l : Layout}

mutual

/-- A value begins between tokens. It may end with a number, so that what follows begins with a
blank or with punctuation. -/
theorem lexes_written (hl : l.Blank) (depth : Nat) : (v : Value) → v.Plain →
    Lexes Between (written l depth v) v.tokens After
  | .null, _ => by
    have hword : word? ['n', 'u', 'l', 'l'] = some .null := rfl
    exact lexes_bare (by decide) (by decide) hword
  | .boolean true, _ => by
    have hword : word? ['t', 'r', 'u', 'e'] = some (.boolean true) := rfl
    exact lexes_bare (by decide) (by decide) hword
  | .boolean false, _ => by
    have hword : word? ['f', 'a', 'l', 's', 'e'] = some (.boolean false) := rfl
    exact lexes_bare (by decide) (by decide) hword
  | .number _, h => lexes_number (h _ List.mem_cons_self)
  | .quoted _, h => (lexes_quoted (h _ List.mem_cons_self)).after
  | .array vs, h => by
    have hopen := lexes_punctuation (t := .openBracket) rfl rfl
    have hclose := lexes_punctuation (t := .closeBracket) rfl rfl
    cases vs with
    | nil => exact hopen.enclosed hclose Lexes.nil.after
    | cons v vs =>
      simp only [Plain, tokens, List.forall_mem_cons, List.forall_mem_append] at h
      obtain ⟨-, ⟨hv, hvs⟩, -⟩ := h
      have hitems := (lexes_written hl (depth + 1) v hv).append
        (lexes_writtenItems hl (depth + 1) vs hvs)
      have hinside := ((lexes_blank (hl.lineBreak (depth + 1))).append hitems).append
        (lexes_blank_after (hl.lineBreak depth))
      simpa [written, tokens] using hopen.enclosed hclose hinside
  | .object ms, h => by
    have hopen := lexes_punctuation (t := .openBrace) rfl rfl
    have hclose := lexes_punctuation (t := .closeBrace) rfl rfl
    cases ms with
    | nil => exact hopen.enclosed hclose Lexes.nil.after
    | cons m ms =>
      simp only [Plain, tokens, List.forall_mem_cons, List.forall_mem_append] at h
      obtain ⟨-, ⟨hm, hms⟩, -⟩ := h
      have hmembers := (lexes_writtenMember hl (depth + 1) m hm).append
        (lexes_writtenMembers hl (depth + 1) ms hms)
      have hinside := ((lexes_blank (hl.lineBreak (depth + 1))).append hmembers).append
        (lexes_blank_after (hl.lineBreak depth))
      simpa [written, tokens] using hopen.enclosed hclose hinside

theorem lexes_writtenItems (hl : l.Blank) (depth : Nat) : (vs : List Value) →
    (∀ t ∈ itemsTokens vs, t.Plain) →
    Lexes After (writtenItems l depth vs) (itemsTokens vs) After
  | [], _ => .nil
  | v :: vs, h => by
    simp only [itemsTokens, List.forall_mem_cons, List.forall_mem_append] at h
    obtain ⟨-, hv, hvs⟩ := h
    have hcomma := (lexes_punctuation (t := .comma) rfl rfl).append
      (lexes_blank (hl.lineBreak depth))
    have hitems := (lexes_written hl depth v hv).append (lexes_writtenItems hl depth vs hvs)
    simpa [writtenItems, itemsTokens] using hcomma.append hitems

theorem lexes_writtenMember (hl : l.Blank) (depth : Nat) : (m : Quoted × Value) →
    (∀ t ∈ memberTokens m, t.Plain) →
    Lexes Between (writtenMember l depth m) (memberTokens m) After
  | (name, v), h => by
    simp only [memberTokens, List.forall_mem_cons] at h
    obtain ⟨hname, -, hv⟩ := h
    have hcolon := (lexes_punctuation (t := .colon) rfl rfl).between.append
      (lexes_blank hl.afterColon)
    have hmember := ((lexes_quoted hname).append hcolon).append (lexes_written hl depth v hv)
    simpa [writtenMember, memberTokens] using hmember

theorem lexes_writtenMembers (hl : l.Blank) (depth : Nat) : (ms : List (Quoted × Value)) →
    (∀ t ∈ membersTokens ms, t.Plain) →
    Lexes After (writtenMembers l depth ms) (membersTokens ms) After
  | [], _ => .nil
  | m :: ms, h => by
    simp only [membersTokens, List.forall_mem_cons, List.forall_mem_append] at h
    obtain ⟨-, hm, hms⟩ := h
    have hcomma := (lexes_punctuation (t := .comma) rfl rfl).append
      (lexes_blank (hl.lineBreak depth))
    have hmembers := (lexes_writtenMember hl depth m hm).append
      (lexes_writtenMembers hl depth ms hms)
    simpa [writtenMembers, membersTokens] using hcomma.append hmembers

end

/-- The text of a value is cut into its tokens. -/
theorem lex?_written (hl : l.Blank) (depth : Nat) {v : Value} (h : v.Plain) :
    lex? (v.written l depth) = some v.tokens := by
  obtain ⟨l', hrun, hafter⟩ := lexes_written hl depth v h [] {} rfl
  rw [lex?, hrun, Option.bind_some, hafter.finish, List.append_nil, List.reverse_reverse]

end Value

/-! ## Building -/

namespace Value

open Builder

/-- What begins a value may also be the first item of an array. -/
theorem foldlM_firstItem (v : Value) (frames : List Frame) :
    v.tokens.foldlM feed ⟨frames, .firstItem⟩ = v.tokens.foldlM feed ⟨frames, .value⟩ := by
  cases v with
  | array items => cases items <;> rfl
  | object members => cases members <;> rfl
  | _ => rfl

theorem foldlM_firstName (m : Quoted × Value) (frames : List Frame) :
    (memberTokens m).foldlM feed ⟨frames, .firstName⟩ =
      (memberTokens m).foldlM feed ⟨frames, .name⟩ := by
  obtain ⟨name, v⟩ := m
  rfl

mutual

/-- A value that is awaited becomes part of the innermost that is open. -/
theorem foldlM_tokens (frames : List Frame) : (v : Value) →
    v.tokens.foldlM feed ⟨frames, .value⟩ = complete v frames
  | .null | .boolean _ | .number _ | .quoted _ => by
    simp [tokens, feed, begin]
  | .array [] => by simp [tokens, feed, begin, closeArray]
  | .array (v :: vs) => by
    have hopen : feed ⟨frames, .value⟩ .openBracket = some ⟨.array [] :: frames, .firstItem⟩ := rfl
    rw [tokens, List.foldlM_cons, hopen]
    simp [foldlM_firstItem, foldlM_tokens (.array [] :: frames) v, complete,
      foldlM_itemsTokens frames [v] vs, feed, closeArray]
  | .object [] => by simp [tokens, feed, begin, closeObject]
  | .object (m :: ms) => by
    have hopen : feed ⟨frames, .value⟩ .openBrace = some ⟨.object [] :: frames, .firstName⟩ := rfl
    rw [tokens, List.foldlM_cons, hopen]
    simp [foldlM_firstName, foldlM_memberTokens frames [] m, foldlM_membersTokens frames [m] ms,
      feed, closeObject]

theorem foldlM_itemsTokens (frames : List Frame) (items : List Value) : (vs : List Value) →
    (itemsTokens vs).foldlM feed ⟨.array items :: frames, .separator⟩ =
      some ⟨.array (vs.reverse ++ items) :: frames, .separator⟩
  | [] => rfl
  | v :: vs => by
    simp [itemsTokens, feed, next, foldlM_tokens (.array items :: frames) v, complete,
      foldlM_itemsTokens frames (v :: items) vs]

theorem foldlM_memberTokens (frames : List Frame) (members : List (Quoted × Value)) :
    (m : Quoted × Value) →
    (memberTokens m).foldlM feed ⟨.object members :: frames, .name⟩ =
      some ⟨.object (m :: members) :: frames, .separator⟩
  | (name, v) => by
    simp [memberTokens, feed, openMember, complete,
      foldlM_tokens (.member members name :: frames) v]

theorem foldlM_membersTokens (frames : List Frame) (members : List (Quoted × Value)) :
    (ms : List (Quoted × Value)) →
    (membersTokens ms).foldlM feed ⟨.object members :: frames, .separator⟩ =
      some ⟨.object (ms.reverse ++ members) :: frames, .separator⟩
  | [] => rfl
  | m :: ms => by
    simp [membersTokens, feed, next, foldlM_memberTokens frames members m,
      foldlM_membersTokens frames (m :: members) ms]

end

/-- From its tokens a value is built again. -/
theorem ofTokens?_tokens (v : Value) : ofTokens? v.tokens = some v := by
  have hfed : v.tokens.foldlM feed {} = some ⟨[], .nothing v⟩ := foldlM_tokens [] v
  rw [ofTokens?, hfed]
  rfl

/-- The text of a value is read as that value, whatever blanks its layout has. -/
theorem parse?_written {l : Layout} (hl : l.Blank) (depth : Nat) {v : Value} (h : v.Plain) :
    parse? (v.written l depth) = some v := by
  rw [parse?, lex?_written hl depth h, Option.bind_some, ofTokens?_tokens]

end Value

/-! ## Compact texts -/

theorem isPrinted_of_isBare (h : isBare b = true) : isPrinted b = true := by
  simp only [isBare, isPrinted, Bool.or_eq_true, Bool.and_eq_true, decide_eq_true_eq, beq_iff_eq,
    UInt8.le_iff_toNat_le, ← UInt8.toNat_inj] at h ⊢
  simp at h ⊢
  omega

theorem all_isPrinted_ascii {run : List Char} (h : run.all Lexer.isBareChar = true) :
    (ascii run).all isPrinted = true := by
  simp only [ascii, List.all_map, List.all_eq_true] at h ⊢
  exact fun c hc => isPrinted_of_isBare (Lexer.isBareChar_iff.1 (h c hc)).2

theorem Token.all_isPrinted_written (h : t.Plain) : t.written.all isPrinted = true := by
  cases t with
  | null => exact all_isPrinted_ascii (by decide)
  | boolean value => cases value <;> exact all_isPrinted_ascii (by decide)
  | number n => exact all_isPrinted_ascii (Lexer.all_isBareChar_text h)
  | quoted content =>
    have hcontent : (content.flatMap Piece.written).all isPrinted = true := by
      rw [List.all_flatMap]
      refine List.all_eq_true.2 fun p hp => ?_
      obtain ⟨b, rfl, hb⟩ := h p hp
      have hbackslash : isPrinted backslash = true := by decide
      by_cases hescape : b = quote ∨ b = backslash <;> simp [Piece.written, hescape, hb, hbackslash]
    have hquote : isPrinted quote = true := by decide
    simp [written, hcontent, hquote]
  | _ => decide

namespace Value

mutual

/-- A compact text consists of the texts of the tokens. -/
theorem written_compact (depth : Nat) : (v : Value) →
    v.written .compact depth = v.tokens.flatMap Token.written
  | .null | .boolean _ | .number _ | .quoted _ => by simp [written, tokens]
  | .array [] | .object [] => by simp [written, tokens]
  | .array (v :: vs) => by
    simp [written, tokens, written_compact (depth + 1) v,
      writtenItems_compact (depth + 1) vs]
  | .object (m :: ms) => by
    simp [written, tokens, writtenMember_compact (depth + 1) m,
      writtenMembers_compact (depth + 1) ms]

theorem writtenItems_compact (depth : Nat) : (vs : List Value) →
    writtenItems .compact depth vs = (itemsTokens vs).flatMap Token.written
  | [] => rfl
  | v :: vs => by
    simp [writtenItems, itemsTokens, written_compact depth v,
      writtenItems_compact depth vs]

theorem writtenMember_compact (depth : Nat) : (m : Quoted × Value) →
    writtenMember .compact depth m = (memberTokens m).flatMap Token.written
  | (name, v) => by simp [writtenMember, memberTokens, written_compact depth v]

theorem writtenMembers_compact (depth : Nat) : (ms : List (Quoted × Value)) →
    writtenMembers .compact depth ms = (membersTokens ms).flatMap Token.written
  | [] => rfl
  | m :: ms => by
    simp [writtenMembers, membersTokens, writtenMember_compact depth m,
      writtenMembers_compact depth ms]

end

end Value

end TopicModel.Json
