import Mathlib.Algebra.Order.Field.Rat
import Convergence.Library.JsText

/-!
# Numerals of JavaScript

`parseInt` with radix ten and `parseFloat`: the value of the longest numeral at the start of a text,
behind white space, whatever comes after it. A value is the exact one of its numeral; a number of
the language is the nearest double. There is no negative zero.

## Main definitions

* `JsNumber`, `JsNumber.parseInt`, `JsNumber.parseFloat`.

## Main results

* `JsNumber.parseInt_toDigits`: the digits of a natural number.
* `JsNumber.parseFloat_point`: digits around a point.
-/

/-- A number. -/
inductive JsNumber
  | nan
  | infinity (negative : Bool)
  | finite (value : ℚ)
  deriving DecidableEq

namespace JsNumber

open JsText

/-! ### Readers -/

/-- An optional sign: whether it is a minus, and the text behind it. -/
def readSign : Text → Bool × Text
  | [] => (false, [])
  | c :: text =>
    if c = '-' then (true, text) else if c = '+' then (false, text) else (false, c :: text)

/-- The decimal digits in front. -/
def readDigits (text : Text) : Text × Text :=
  (text.takeWhile Char.isDigit, text.dropWhile Char.isDigit)

/-- A number with its sign. -/
def withSign (negative : Bool) (value : ℚ) : ℚ := if negative then -value else value

/-- `parseInt(text, 10)`. -/
def parseInt (text : Text) : JsNumber :=
  let (negative, text) := readSign (trimStart text)
  let (digits, _) := readDigits text
  if digits = [] then nan else finite (withSign negative (Nat.ofDigitChars 10 digits 0))

/-- The fraction behind an optional point, and the text behind it. -/
def readFraction : Text → Text × Text
  | [] => ([], [])
  | c :: text => if c = '.' then readDigits text else ([], c :: text)

/-- The power of ten in front: an exponent counts when it has digits. -/
def readExponent : Text → ℚ
  | [] => 1
  | c :: text =>
    if c = 'e' ∨ c = 'E' then
      let (negative, text) := readSign text
      let power := 10 ^ Nat.ofDigitChars 10 (readDigits text).1 0
      if negative then power⁻¹ else power
    else 1

/-- An unsigned decimal numeral: at least one digit, before or behind the point. -/
def readDecimal (text : Text) : Option ℚ :=
  let (whole, text) := readDigits text
  let (fraction, text) := readFraction text
  if whole = [] ∧ fraction = [] then none
  else
    let digits : ℚ := Nat.ofDigitChars 10 (whole ++ fraction) 0
    some (digits / 10 ^ fraction.length * readExponent text)

/-- `parseFloat(text)`. -/
def parseFloat (text : Text) : JsNumber :=
  let (negative, text) := readSign (trimStart text)
  if "Infinity".toList.isPrefixOf text then infinity negative
  else
    match readDecimal text with
    | none => nan
    | some value => finite (withSign negative value)

/-! ### Digits -/

section Digits

variable {digits rest : Text}

theorem isDigit_iff {c : Char} : c.isDigit ↔ 48 ≤ c.toNat ∧ c.toNat ≤ 57 := by
  rw [Char.isDigit, Bool.and_eq_true, decide_eq_true_eq, decide_eq_true_eq]
  exact Iff.rfl

/-- In front of a digit there is neither white space nor a sign. -/
theorem readSign_trimStart (hne : digits ≠ []) (h : ∀ c ∈ digits, c.isDigit)
    (rest : Text) : readSign (trimStart (digits ++ rest)) = (false, digits ++ rest) := by
  obtain ⟨c, tail, rfl⟩ := List.exists_cons_of_ne_nil hne
  have hc := h c List.mem_cons_self
  have hminus : c ≠ '-' := by
    rintro rfl
    simp at hc
  have hplus : c ≠ '+' := by
    rintro rfl
    simp at hc
  have hwhite : ¬ isWhite c = true := by simp [isWhite_eq_false_of_isDigit hc]
  rw [List.cons_append, trimStart, List.dropWhile_cons_of_neg hwhite, readSign, if_neg hminus,
    if_neg hplus]

/-- The digits end where a character is not one. -/
theorem readDigits_append (h : ∀ c ∈ digits, c.isDigit)
    (hrest : ∀ c ∈ rest.head?, c.isDigit = false) :
    readDigits (digits ++ rest) = (digits, rest) := by
  rw [readDigits, List.takeWhile_append_of_pos h, List.dropWhile_append_of_pos h]
  cases rest with
  | nil => simp
  | cons c rest =>
    have hc := hrest c rfl
    simp [hc]

theorem readDigits_of_forall (h : ∀ c ∈ digits, c.isDigit) : readDigits digits = (digits, []) := by
  have hread : readDigits (digits ++ []) = (digits, []) := readDigits_append h (by simp)
  rwa [List.append_nil] at hread

/-- A text of digits is an integer. -/
theorem parseInt_of_forall (hne : digits ≠ []) (h : ∀ c ∈ digits, c.isDigit) :
    parseInt digits = finite (Nat.ofDigitChars 10 digits 0) := by
  have hsign := readSign_trimStart hne h []
  rw [List.append_nil] at hsign
  simp [parseInt, hsign, readDigits_of_forall h, hne, withSign]

theorem parseInt_toDigits (n : ℕ) : parseInt (Nat.toDigits 10 n) = finite n := by
  have hdigits : ∀ c ∈ Nat.toDigits 10 n, c.isDigit := fun c hc =>
    Nat.isDigit_of_mem_toDigits (by omega) le_rfl hc
  rw [parseInt_of_forall Nat.toDigits_ne_nil hdigits, Nat.ofDigitChars_ten_toDigits]

/-- A text of digits around a point is a decimal fraction. -/
theorem parseFloat_point {whole fraction : Text} (hne : whole ≠ [])
    (hwhole : ∀ c ∈ whole, c.isDigit) (hfraction : ∀ c ∈ fraction, c.isDigit) :
    parseFloat (whole ++ '.' :: fraction) =
      finite (Nat.ofDigitChars 10 (whole ++ fraction) 0 / 10 ^ fraction.length) := by
  have hwholeRead : readDigits (whole ++ '.' :: fraction) = (whole, '.' :: fraction) :=
    readDigits_append hwhole (by simp)
  have hdecimal : readDecimal (whole ++ '.' :: fraction) =
      some ((Nat.ofDigitChars 10 (whole ++ fraction) 0 : ℚ) / 10 ^ fraction.length) := by
    simp [readDecimal, hwholeRead, readFraction, readDigits_of_forall hfraction, hne, readExponent]
  have hinfinity : "Infinity".toList.isPrefixOf (whole ++ '.' :: fraction) = false := by
    obtain ⟨c, tail, rfl⟩ := List.exists_cons_of_ne_nil hne
    have hc := hwhole c List.mem_cons_self
    have hI : ('I' == c) = false := by
      refine beq_false_of_ne ?_
      rintro rfl
      simp at hc
    rw [List.cons_append]
    exact congrArg (· && _) hI
  simp only [parseFloat, readSign_trimStart hne hwhole, hinfinity, hdecimal]
  rfl

end Digits

end JsNumber
