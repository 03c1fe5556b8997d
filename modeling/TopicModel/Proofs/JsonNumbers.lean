import Mathlib
import TopicModel.Json.Reading
import TopicModel.Proofs.Numerals

/-!
# Number literals

A literal is `Sound` if it is one of JSON: digits before the point, no zero in front of others, and
digits behind it, if any. The text of a sound literal is read as that literal (`parse?_text`), and
the literal of an integer as that integer (`integer?_ofInt`). An integer of 64 bits is also a double
(`isSome_double?_ofInt`).
-/

namespace TopicModel

namespace Decimal

/-- Digits are taken up to the first character that is none. -/
theorem spanDigits_append {digits rest : List Char} (hdigits : ∀ c ∈ digits, c.isDigit = true)
    (hrest : ∀ c ∈ rest.head?, c.isDigit = false) :
    spanDigits (digits ++ rest) = (digits, rest) := by
  have hstop : rest.takeWhile Char.isDigit = [] ∧ rest.dropWhile Char.isDigit = rest := by
    cases rest with
    | nil => exact ⟨rfl, rfl⟩
    | cons c rest =>
      have hc : c.isDigit = false := hrest c rfl
      simp [hc]
  rw [spanDigits, List.span_eq_takeWhile_dropWhile, List.takeWhile_append_of_pos hdigits,
    List.dropWhile_append_of_pos hdigits, hstop.1, hstop.2, List.append_nil]

theorem isDigit_toDigits (n : Nat) : ∀ c ∈ Nat.toDigits 10 n, c.isDigit = true := fun _ hc =>
  Nat.isDigit_of_mem_toDigits (by decide) (by decide) hc

theorem ofDigits_toDigits (n : Nat) : ofDigits (Nat.toDigits 10 n) = n :=
  Nat.ofDigitChars_ten_toDigits

/-- The digits of a number begin with a zero only if it is zero. -/
theorem toDigits_of_leading_zero {n : Nat} (h : (Nat.toDigits 10 n).head? = some '0') :
    Nat.toDigits 10 n = ['0'] := by
  induction n using Nat.strong_induction_on with
  | _ n ih =>
    rw [Nat.toDigits_eq_if (by decide)] at h ⊢
    split at h
    · rename_i hlt
      rw [if_pos hlt]
      simpa using h
    · rename_i hge
      rw [List.head?_append_of_ne_nil _ Nat.toDigits_ne_nil] at h
      have hzero := ih (n / 10) (Nat.div_lt_self (by omega) (by decide)) h
      have hvalue : n / 10 = 0 := by
        rw [← ofDigits_toDigits (n / 10), hzero]
        rfl
      omega

end Decimal

namespace Json.Number

open Decimal

variable {n : Number} {cs : List Char}

/-! ## Texts -/

/-- The literal is one of JSON. -/
structure Sound (n : Number) : Prop where
  nonempty : n.whole ≠ []
  whole : ∀ c ∈ n.whole, c.isDigit = true
  leading : n.whole.head? = some '0' → n.whole = ['0']
  fraction : ∀ c ∈ n.fraction, c.isDigit = true

def signText (negative : Bool) : List Char := if negative then ['-'] else []

def fractionText (fraction : List Char) : List Char :=
  if fraction.isEmpty then [] else '.' :: fraction

def exponentText : Option Int → List Char
  | some e => 'e' :: integerText e
  | none => []

theorem text_eq (n : Number) : n.text =
    signText n.negative ++ (n.whole ++ (fractionText n.fraction ++ exponentText n.exponent)) := by
  obtain ⟨negative, whole, fraction, exponent⟩ := n
  cases exponent <;> simp only [text, signText, fractionText, exponentText, List.append_assoc]

/-- Digits have no sign in front. -/
theorem splitSign_digits (h : ∀ c ∈ cs, c.isDigit = true) : splitSign cs = (false, cs) := by
  unfold splitSign
  split
  · exact absurd (h '-' List.mem_cons_self) (by decide)
  · exact absurd (h '+' List.mem_cons_self) (by decide)
  · rfl

theorem parseExponent?_integerText (e : Int) :
    parseExponent? ('e' :: integerText e) = some e := by
  have hspan : spanDigits (Nat.toDigits 10 e.natAbs) = (Nat.toDigits 10 e.natAbs, []) := by
    have hall := @spanDigits_append _ [] (isDigit_toDigits e.natAbs) (by simp)
    rwa [List.append_nil] at hall
  have hnonempty : (Nat.toDigits 10 e.natAbs).isEmpty = false := by
    simp [Nat.toDigits_ne_nil]
  unfold integerText
  split
  · rename_i hneg
    have hneg' : (e.natAbs : Int) = -e := by omega
    simp [parseExponent?, splitSign, hspan, ofDigits_toDigits, hnonempty, hneg']
  · rename_i hpos
    have hpos' : (e.natAbs : Int) = e := by omega
    simp [parseExponent?, splitSign_digits (isDigit_toDigits e.natAbs), hspan, ofDigits_toDigits,
      hnonempty, hpos']

theorem finish?_exponentText (negative : Bool) (whole fraction : List Char)
    (exponent : Option Int) : finish? negative whole fraction (exponentText exponent) =
      some ⟨negative, whole, fraction, exponent⟩ := by
  cases exponent with
  | none => rfl
  | some e => simp [exponentText, finish?, parseExponent?_integerText]

/-- What follows digits is no digit. -/
theorem isDigit_head?_exponentText {exponent : Option Int} :
    ∀ c ∈ (exponentText exponent).head?, c.isDigit = false := by
  cases exponent with
  | none => simp [exponentText]
  | some e =>
    intro c hc
    cases hc
    rfl

theorem magnitude?_text (h : n.Sound) : magnitude? n.negative
    (n.whole ++ (fractionText n.fraction ++ exponentText n.exponent)) = some n := by
  obtain ⟨negative, whole, fraction, exponent⟩ := n
  have hrest : ∀ c ∈ (fractionText fraction ++ exponentText exponent).head?, c.isDigit = false := by
    cases fraction with
    | nil => exact isDigit_head?_exponentText
    | cons c fraction =>
      intro d hd
      cases hd
      rfl
  have hform : ¬ (whole.isEmpty = true ∨ whole.head? = some '0' ∧ whole ≠ ['0']) := by
    rintro (hempty | ⟨hzero, hother⟩)
    · exact h.nonempty (List.isEmpty_iff.1 hempty)
    · exact hother (h.leading hzero)
  simp only [magnitude?, spanDigits_append h.whole hrest]
  rw [if_neg hform]
  cases fraction with
  | nil =>
    have hexponent : ∀ rest, exponentText exponent ≠ '.' :: rest := by
      cases exponent <;> simp [exponentText]
    simp only [fractionText, List.isEmpty_nil, if_true, List.nil_append]
    exact finish?_exponentText negative whole [] exponent
  | cons c fraction =>
    have hspan := spanDigits_append h.fraction (@isDigit_head?_exponentText exponent)
    simp only [fractionText, List.isEmpty_cons, Bool.false_eq_true, if_false, List.cons_append]
    simp only [List.cons_append] at hspan
    simp only [hspan, List.isEmpty_cons, Bool.false_eq_true, if_false]
    exact finish?_exponentText negative whole (c :: fraction) exponent

/-- The text of a literal is read as that literal. -/
theorem parse?_text (h : n.Sound) : parse? n.text = some n := by
  have hmagnitude := magnitude?_text h
  rw [text_eq]
  cases hsign : n.negative with
  | true =>
    rw [hsign] at hmagnitude
    exact hmagnitude
  | false =>
    rw [hsign] at hmagnitude
    obtain ⟨c, whole, hwhole⟩ := List.exists_cons_of_ne_nil h.nonempty
    have hc : c.isDigit = true := h.whole c (hwhole ▸ List.mem_cons_self)
    simp only [signText, Bool.false_eq_true, if_false, List.nil_append, hwhole,
      List.cons_append] at hmagnitude ⊢
    unfold parse?
    split
    · rename_i hminus
      cases hminus
      cases hc
    · exact hmagnitude

theorem mem_integerText {e : Int} {c : Char} (hc : c ∈ integerText e) :
    c.isDigit = true ∨ c = '-' := by
  unfold integerText at hc
  split at hc
  · rcases List.mem_cons.1 hc with rfl | hc
    · exact .inr rfl
    · exact .inl (isDigit_toDigits _ c hc)
  · exact .inl (isDigit_toDigits _ c hc)

/-- The characters of a literal. -/
theorem mem_text (h : n.Sound) {c : Char} (hc : c ∈ n.text) :
    c.isDigit = true ∨ c ∈ ['-', '.', 'e'] := by
  rw [text_eq, List.mem_append, List.mem_append, List.mem_append] at hc
  obtain hc | hc | hc | hc := hc
  · unfold signText at hc
    split at hc
    · obtain rfl := List.mem_singleton.1 hc
      exact .inr (by decide)
    · cases hc
  · exact .inl (h.whole c hc)
  · unfold fractionText at hc
    split at hc
    · cases hc
    · rcases List.mem_cons.1 hc with rfl | hc
      · exact .inr (by decide)
      · exact .inl (h.fraction c hc)
  · unfold exponentText at hc
    split at hc
    · rcases List.mem_cons.1 hc with rfl | hc
      · exact .inr (by decide)
      · rcases mem_integerText hc with hdigit | rfl
        · exact .inl hdigit
        · exact .inr (by decide)
    · cases hc

/-! ## Integers -/

theorem sound_ofInt (i : Int) : (ofInt i).Sound where
  nonempty := Nat.toDigits_ne_nil
  whole := isDigit_toDigits _
  leading := toDigits_of_leading_zero
  fraction := List.forall_mem_nil _

theorem integer?_ofInt (i : Int) : (ofInt i).integer? = some i := by
  have hzero : ¬ (i < 0 ∧ i.natAbs = 0) := by omega
  have hvalue : (if i < 0 then -(i.natAbs : Int) else i.natAbs) = i := by split <;> omega
  simp only [integer?, ofInt, ofDigits_toDigits, List.isEmpty_nil, Option.isSome_none,
    decide_eq_true_eq]
  rw [if_neg (by simpa using hzero), hvalue]

/-- Digits of a number below `2 ^ 64` are all gathered. -/
theorem gather_eq {start : Nat} (h : Nat.ofDigitChars 10 cs start < 2 ^ 64) :
    gather start cs = (Nat.ofDigitChars 10 cs start, []) := by
  induction cs generalizing start with
  | nil => rfl
  | cons c cs ih =>
    rw [Nat.ofDigitChars_cons] at h ⊢
    have hnext : 10 * start + (c.toNat - '0'.toNat) < UInt64.size :=
      Nat.lt_of_le_of_lt (le_ofDigitChars cs _) h
    rw [gather, if_pos hnext]
    exact ih h

/-- An integer of 64 bits is a double, perhaps after rounding. -/
theorem isSome_double?_ofInt {i : Int} (h : i.natAbs < 2 ^ 64) :
    (ofInt i).double?.isSome = true := by
  have hgather : gather 0 (Nat.toDigits 10 i.natAbs) = (i.natAbs, []) := by
    rw [gather_eq] <;> rw [Nat.ofDigitChars_ten_toDigits]
    exact h
  simp [double?, ofInt, hgather, gather, scale?]

end Json.Number

end TopicModel
