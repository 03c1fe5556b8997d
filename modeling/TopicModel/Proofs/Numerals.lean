import Mathlib
import TopicModel.Decimal.Integer
import TopicModel.Error

/-!
# The grammar of integers

`ReadsNatural` and `ReadsInteger` say which texts denote which numbers of a width: decimal digits
behind an optional sign, a minus only for integers, and the number in its range. The readers accept
just these (`parseNatural_ok_iff`, `parseInteger_ok_iff`).

A text is refused for its first fault from the left (`DigitsRefused`): a character that is no digit,
unless the digits before it have left the range already (`parseNatural_error_iff`,
`parseInteger_error_iff`).
-/

namespace TopicModel.Decimal

variable {limit bits n start : Nat} {overflow fault : IntegerFault} {cs : List Char}

/-- The text is the decimal numeral of the number, leading zeros allowed. -/
structure IsNumeral (cs : List Char) (n : Nat) : Prop where
  nonempty : cs ≠ []
  digits : ∀ c ∈ cs, c.isDigit = true
  value : Nat.ofDigitChars 10 cs 0 = n

/-- Why digits that continue the number `start` are refused, read from the left. -/
inductive DigitsRefused (limit : Nat) (overflow : IntegerFault) (start : Nat) :
    List Char → IntegerFault → Prop
  /-- A character that is no digit, behind digits of a number in range. -/
  | digit {before after : List Char} {c : Char} : (∀ d ∈ before, d.isDigit = true) →
      Nat.ofDigitChars 10 before start ≤ limit → c.isDigit = false →
      DigitsRefused limit overflow start (before ++ c :: after) .invalidDigit
  /-- Digits of a number beyond the limit, whatever follows. -/
  | range {before after : List Char} : (∀ d ∈ before, d.isDigit = true) →
      limit < Nat.ofDigitChars 10 before start →
      DigitsRefused limit overflow start (before ++ after) overflow

/-! ## Digits -/

/-- More digits make no smaller number. -/
theorem le_ofDigitChars (cs : List Char) (n : Nat) : n ≤ Nat.ofDigitChars 10 cs n := by
  induction cs generalizing n with
  | nil => exact Nat.le_refl n
  | cons c cs ih =>
    rw [Nat.ofDigitChars_cons]
    exact Nat.le_trans (by omega) (ih _)

/-- Digits of a number in range are passed over. -/
theorem digitsFrom_append {before rest : List Char} (hdigits : ∀ d ∈ before, d.isDigit = true)
    (hle : Nat.ofDigitChars 10 before start ≤ limit) :
    digitsFrom limit overflow start (before ++ rest) =
      digitsFrom limit overflow (Nat.ofDigitChars 10 before start) rest := by
  induction before generalizing start with
  | nil => rfl
  | cons c before ih =>
    obtain ⟨hc, hdigits⟩ := List.forall_mem_cons.1 hdigits
    rw [Nat.ofDigitChars_cons] at hle ⊢
    have hnext := Nat.le_trans (le_ofDigitChars before _) hle
    rw [List.cons_append, digitsFrom, if_neg (by simp [hc])]
    dsimp only
    rw [if_neg (Nat.not_lt.2 hnext), ih hdigits hle]

theorem digitsFrom_of_range {before rest : List Char} (hstart : start ≤ limit)
    (hdigits : ∀ d ∈ before, d.isDigit = true)
    (hlt : limit < Nat.ofDigitChars 10 before start) :
    digitsFrom limit overflow start (before ++ rest) = .error overflow := by
  induction before generalizing start with
  | nil => exact absurd hlt (Nat.not_lt.2 hstart)
  | cons c before ih =>
    obtain ⟨hc, hdigits⟩ := List.forall_mem_cons.1 hdigits
    rw [Nat.ofDigitChars_cons] at hlt
    rw [List.cons_append, digitsFrom, if_neg (by simp [hc])]
    dsimp only
    split
    · rfl
    · rename_i hin
      exact ih (Nat.le_of_not_lt hin) hdigits hlt

theorem digitsFrom_ok (h : digitsFrom limit overflow start cs = .ok n) (hstart : start ≤ limit) :
    (∀ c ∈ cs, c.isDigit = true) ∧ Nat.ofDigitChars 10 cs start = n ∧ n ≤ limit := by
  induction cs generalizing start with
  | nil =>
    cases h
    exact ⟨List.forall_mem_nil _, rfl, hstart⟩
  | cons c cs ih =>
    rw [digitsFrom] at h
    split at h
    · cases h
    · rename_i hc
      dsimp only at h
      split at h
      · cases h
      · rename_i hin
        obtain ⟨hdigits, hvalue, hle⟩ := ih h (Nat.le_of_not_lt hin)
        exact ⟨List.forall_mem_cons.2 ⟨by simpa using hc, hdigits⟩, hvalue, hle⟩

theorem digitsFrom_error (h : digitsFrom limit overflow start cs = .error fault)
    (hstart : start ≤ limit) : DigitsRefused limit overflow start cs fault := by
  induction cs generalizing start with
  | nil => cases h
  | cons c cs ih =>
    rw [digitsFrom] at h
    split at h
    · rename_i hc
      cases h
      exact .digit (List.forall_mem_nil _) hstart (by simpa using hc)
    · rename_i hc
      have hc : c.isDigit = true := by simpa using hc
      dsimp only at h
      split at h
      · rename_i hover
        cases h
        exact .range (List.forall_mem_singleton.2 hc) hover
      · rename_i hin
        cases ih h (Nat.le_of_not_lt hin) with
        | digit hdigits hle hbad =>
          exact .digit (List.forall_mem_cons.2 ⟨hc, hdigits⟩) hle hbad
        | range hdigits hlt =>
          exact .range (List.forall_mem_cons.2 ⟨hc, hdigits⟩) hlt

theorem digitsFrom_of_refused (h : DigitsRefused limit overflow start cs fault)
    (hstart : start ≤ limit) : digitsFrom limit overflow start cs = .error fault := by
  cases h with
  | digit hdigits hle hbad =>
    rw [digitsFrom_append hdigits hle, digitsFrom, if_pos (by simp [hbad])]
  | range hdigits hlt => exact digitsFrom_of_range hstart hdigits hlt

/-- Why a text is refused that should be digits only. -/
def NumeralRefused (limit : Nat) (overflow : IntegerFault) (cs : List Char)
    (fault : IntegerFault) : Prop :=
  cs = [] ∧ fault = .invalidDigit ∨ cs ≠ [] ∧ DigitsRefused limit overflow 0 cs fault

theorem digits_ok_iff : digits limit overflow cs = .ok n ↔ IsNumeral cs n ∧ n ≤ limit := by
  cases cs with
  | nil =>
    simp only [digits, reduceCtorEq, false_iff]
    rintro ⟨h, -⟩
    exact h.nonempty rfl
  | cons c cs =>
    constructor
    · intro h
      obtain ⟨hdigits, hvalue, hle⟩ := digitsFrom_ok h (Nat.zero_le _)
      exact ⟨⟨List.cons_ne_nil c cs, hdigits, hvalue⟩, hle⟩
    · rintro ⟨⟨-, hdigits, rfl⟩, hle⟩
      have hall : digitsFrom limit overflow 0 (c :: cs ++ []) = _ := digitsFrom_append hdigits hle
      rwa [List.append_nil] at hall

theorem digits_error_iff :
    digits limit overflow cs = .error fault ↔ NumeralRefused limit overflow cs fault := by
  cases cs with
  | nil => simp [digits, NumeralRefused, eq_comm]
  | cons c cs =>
    simp only [digits, NumeralRefused, reduceCtorEq, false_and, false_or, ne_eq, not_false_iff,
      true_and]
    exact ⟨fun h => digitsFrom_error h (Nat.zero_le _),
      fun h => digitsFrom_of_refused h (Nat.zero_le _)⟩

/-! ## Signs and ranges -/

/-- The text denotes the natural number, of at most so many bits. -/
inductive ReadsNatural (bits : Nat) : List Char → Nat → Prop
  | plain {cs : List Char} {n : Nat} : IsNumeral cs n → n < 2 ^ bits → ReadsNatural bits cs n
  | plus {cs : List Char} {n : Nat} : IsNumeral cs n → n < 2 ^ bits →
      ReadsNatural bits ('+' :: cs) n

/-- The text denotes the integer, of at most so many bits in two's complement. -/
inductive ReadsInteger (bits : Nat) : List Char → Int → Prop
  | plain {cs : List Char} {n : Nat} : IsNumeral cs n → n < 2 ^ (bits - 1) → ReadsInteger bits cs n
  | plus {cs : List Char} {n : Nat} : IsNumeral cs n → n < 2 ^ (bits - 1) →
      ReadsInteger bits ('+' :: cs) n
  | minus {cs : List Char} {n : Nat} : IsNumeral cs n → n ≤ 2 ^ (bits - 1) →
      ReadsInteger bits ('-' :: cs) (-n)

/-- Why a text denotes no natural number of so many bits. -/
inductive NaturalRefused (bits : Nat) : List Char → IntegerFault → Prop
  | plain {cs : List Char} {fault : IntegerFault} : cs.head? ≠ some '+' →
      NumeralRefused (2 ^ bits - 1) .tooLarge cs fault → NaturalRefused bits cs fault
  | plus {cs : List Char} {fault : IntegerFault} :
      NumeralRefused (2 ^ bits - 1) .tooLarge cs fault → NaturalRefused bits ('+' :: cs) fault

/-- Why a text denotes no integer of so many bits. -/
inductive IntegerRefused (bits : Nat) : List Char → IntegerFault → Prop
  | plain {cs : List Char} {fault : IntegerFault} : cs.head? ≠ some '+' → cs.head? ≠ some '-' →
      NumeralRefused (2 ^ (bits - 1) - 1) .tooLarge cs fault → IntegerRefused bits cs fault
  | plus {cs : List Char} {fault : IntegerFault} :
      NumeralRefused (2 ^ (bits - 1) - 1) .tooLarge cs fault → IntegerRefused bits ('+' :: cs) fault
  | minus {cs : List Char} {fault : IntegerFault} :
      NumeralRefused (2 ^ (bits - 1)) .tooSmall cs fault → IntegerRefused bits ('-' :: cs) fault

/-- A numeral has no sign. -/
theorem IsNumeral.head?_ne (h : IsNumeral cs n) {sign : Char} (hsign : sign.isDigit = false) :
    cs.head? ≠ some sign := by
  intro hhead
  have hdigit := h.digits sign (List.mem_of_mem_head? hhead)
  rw [hsign] at hdigit
  cases hdigit

theorem maxOfBits_eq (bits : Nat) : maxOfBits bits = 2 ^ bits - 1 := by
  rw [maxOfBits, Nat.one_shiftLeft]

theorem parseNatural_plain (h : cs.head? ≠ some '+') :
    parseNatural limit cs = digits limit .tooLarge cs := by
  unfold parseNatural
  split
  · exact absurd rfl h
  · rfl

theorem parseNatural_ok_iff :
    parseNatural (maxOfBits bits) cs = .ok n ↔ ReadsNatural bits cs n := by
  have hlimit : n ≤ 2 ^ bits - 1 ↔ n < 2 ^ bits := Nat.le_sub_one_iff_lt (Nat.two_pow_pos bits)
  rw [maxOfBits_eq]
  constructor
  · intro h
    unfold parseNatural at h
    split at h
    · obtain ⟨hnumeral, hle⟩ := digits_ok_iff.1 h
      exact .plus hnumeral (hlimit.1 hle)
    · obtain ⟨hnumeral, hle⟩ := digits_ok_iff.1 h
      exact .plain hnumeral (hlimit.1 hle)
  · intro h
    cases h with
    | plain hnumeral hlt =>
      rw [parseNatural_plain (hnumeral.head?_ne rfl)]
      exact digits_ok_iff.2 ⟨hnumeral, hlimit.2 hlt⟩
    | plus hnumeral hlt => exact digits_ok_iff.2 ⟨hnumeral, hlimit.2 hlt⟩

theorem parseNatural_error_iff :
    parseNatural (maxOfBits bits) cs = .error fault ↔ NaturalRefused bits cs fault := by
  rw [maxOfBits_eq]
  constructor
  · intro h
    unfold parseNatural at h
    split at h
    · exact .plus (digits_error_iff.1 h)
    · rename_i hplain
      refine .plain (fun hhead => ?_) (digits_error_iff.1 h)
      obtain ⟨rest, rfl⟩ := List.head?_eq_some_iff.1 hhead
      exact hplain rest rfl
  · intro h
    cases h with
    | plain hplain hrefused =>
      rw [parseNatural_plain hplain]
      exact digits_error_iff.2 hrefused
    | plus hrefused => exact digits_error_iff.2 hrefused

theorem parseInteger_plain (hplus : cs.head? ≠ some '+') (hminus : cs.head? ≠ some '-') :
    parseInteger bits cs = (digits (2 ^ (bits - 1) - 1) .tooLarge cs).map Int.ofNat := by
  rw [← Nat.one_shiftLeft]
  unfold parseInteger
  split
  · exact absurd rfl hminus
  · exact absurd rfl hplus
  · rfl

theorem parseInteger_plus (bits : Nat) (cs : List Char) : parseInteger bits ('+' :: cs) =
    (digits (2 ^ (bits - 1) - 1) .tooLarge cs).map Int.ofNat := by
  rw [← Nat.one_shiftLeft, parseInteger]

theorem parseInteger_minus (bits : Nat) (cs : List Char) : parseInteger bits ('-' :: cs) =
    (digits (2 ^ (bits - 1)) .tooSmall cs).map fun n : Nat => -(n : Int) := by
  rw [← Nat.one_shiftLeft, parseInteger]
  cases digits (1 <<< (bits - 1)) .tooSmall cs <;> rfl

/-- A text begins with one of the signs or with none. -/
theorem sign_cases (cs : List Char) :
    (∃ rest, cs = '+' :: rest) ∨ (∃ rest, cs = '-' :: rest) ∨
      cs.head? ≠ some '+' ∧ cs.head? ≠ some '-' := by
  by_cases hplus : cs.head? = some '+'
  · exact .inl (List.head?_eq_some_iff.1 hplus)
  · by_cases hminus : cs.head? = some '-'
    · exact .inr (.inl (List.head?_eq_some_iff.1 hminus))
    · exact .inr (.inr ⟨hplus, hminus⟩)

theorem parseInteger_ok_iff {i : Int} :
    parseInteger bits cs = .ok i ↔ ReadsInteger bits cs i := by
  have hlimit : ∀ n, n ≤ 2 ^ (bits - 1) - 1 ↔ n < 2 ^ (bits - 1) := fun n =>
    Nat.le_sub_one_iff_lt (Nat.two_pow_pos _)
  constructor
  · intro h
    rcases sign_cases cs with ⟨rest, rfl⟩ | ⟨rest, rfl⟩ | ⟨hplus, hminus⟩
    · rw [parseInteger_plus] at h
      obtain ⟨n, hn, rfl⟩ := Outcome.map_eq_ok_iff.1 h
      obtain ⟨hnumeral, hle⟩ := digits_ok_iff.1 hn
      exact .plus hnumeral ((hlimit n).1 hle)
    · rw [parseInteger_minus] at h
      obtain ⟨n, hn, rfl⟩ := Outcome.map_eq_ok_iff.1 h
      obtain ⟨hnumeral, hle⟩ := digits_ok_iff.1 hn
      exact .minus hnumeral hle
    · rw [parseInteger_plain hplus hminus] at h
      obtain ⟨n, hn, rfl⟩ := Outcome.map_eq_ok_iff.1 h
      obtain ⟨hnumeral, hle⟩ := digits_ok_iff.1 hn
      exact .plain hnumeral ((hlimit n).1 hle)
  · intro h
    cases h with
    | @plain _ n hnumeral hlt =>
      rw [parseInteger_plain (hnumeral.head?_ne rfl) (hnumeral.head?_ne rfl)]
      exact Outcome.map_eq_ok_iff.2 ⟨n, digits_ok_iff.2 ⟨hnumeral, (hlimit n).2 hlt⟩, rfl⟩
    | @plus _ n hnumeral hlt =>
      rw [parseInteger_plus]
      exact Outcome.map_eq_ok_iff.2 ⟨n, digits_ok_iff.2 ⟨hnumeral, (hlimit n).2 hlt⟩, rfl⟩
    | @minus _ n hnumeral hle =>
      rw [parseInteger_minus]
      exact Outcome.map_eq_ok_iff.2 ⟨n, digits_ok_iff.2 ⟨hnumeral, hle⟩, rfl⟩

theorem parseInteger_error_iff :
    parseInteger bits cs = .error fault ↔ IntegerRefused bits cs fault := by
  constructor
  · intro h
    rcases sign_cases cs with ⟨rest, rfl⟩ | ⟨rest, rfl⟩ | ⟨hplus, hminus⟩
    · rw [parseInteger_plus, Outcome.map_eq_error_iff, digits_error_iff] at h
      exact .plus h
    · rw [parseInteger_minus, Outcome.map_eq_error_iff, digits_error_iff] at h
      exact .minus h
    · rw [parseInteger_plain hplus hminus, Outcome.map_eq_error_iff, digits_error_iff] at h
      exact .plain hplus hminus h
  · intro h
    cases h with
    | plain hplus hminus hrefused =>
      rw [parseInteger_plain hplus hminus, Outcome.map_eq_error_iff]
      exact digits_error_iff.2 hrefused
    | plus hrefused =>
      rw [parseInteger_plus, Outcome.map_eq_error_iff]
      exact digits_error_iff.2 hrefused
    | minus hrefused =>
      rw [parseInteger_minus, Outcome.map_eq_error_iff]
      exact digits_error_iff.2 hrefused

end TopicModel.Decimal
