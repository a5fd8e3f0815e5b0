import Mathlib.Algebra.Order.Field.Rat
import Convergence.Library.TextStream

/-!
# Decimal numerals in a text

Numerals in ASCII as the formatted input of C++ reads them in the `"C"` locale: an optional sign and
digits for an integer; for a decimal fraction also a point, and an exponent behind at least one
digit. A numeral is read up to the first character that cannot belong to it. What has been read need
not be a numeral: nothing at all, a sign alone, or an exponent without digits.

## Main definitions

* `isSpace`, `toUpper`.
* `IntegerState`, `scanInteger`: the automaton of integers.
* `DecimalState`, `scanDecimal`: the automaton of decimal fractions.

## Main results

* `integerStep_space`, `decimalStep_space`: numerals end at white space.
* `scanInteger_numeral`: a decimal expansion with a sign is read as its value.
-/

namespace DecimalText

open TextStream

/-- `std::isspace`. -/
def isSpace (b : UInt8) : Bool := b == 32 || 9 ≤ b && b ≤ 13

/-- The value of a digit. -/
def digit (b : UInt8) : Option ℕ := if 48 ≤ b ∧ b ≤ 57 then some (b.toNat - 48) else none

/-- The sign character: whether it is a minus. -/
def sign (b : UInt8) : Option Bool :=
  if b = 43 then some false else if b = 45 then some true else none

/-- `::toupper`. -/
def toUpper (b : UInt8) : UInt8 := if 97 ≤ b ∧ b ≤ 122 then b - 32 else b

/-- The text of a string of ASCII characters. -/
def ascii (s : String) : List UInt8 := s.toList.map Char.toUInt8

/-- A number with its sign. -/
def withSign {R : Type*} [Neg R] (negative : Bool) (r : R) : R := if negative then -r else r

/-! ### Integers -/

/-- What has been read of an integer. -/
inductive IntegerState
  | start
  | signed (negative : Bool)
  | digits (negative : Bool) (n : ℕ)

/-- The next character of an integer. -/
def integerStep : IntegerState → UInt8 → Option IntegerState
  | .start, b => ((sign b).map .signed).or ((digit b).map (.digits false))
  | .signed negative, b => (digit b).map (.digits negative)
  | .digits negative n, b => (digit b).map fun d => .digits negative (10 * n + d)

/-- The integer that has been read. -/
def IntegerState.value : IntegerState → Option ℤ
  | .digits negative n => some (withSign negative n)
  | _ => none

/-- The integer at the start of a text, and what is behind the characters read. -/
def scanInteger (text : List UInt8) : Option ℤ × List UInt8 :=
  let m := munch integerStep .start text
  (m.1.value, m.2)

/-! ### Decimal fractions -/

/-- What has been read of a decimal fraction: a number of `10 ^ (-places)`, and an exponent. -/
inductive DecimalState
  | start
  | signed (negative : Bool)
  | whole (negative : Bool) (n : ℕ)
  | point (negative : Bool) (n places : ℕ) (digits : Bool)
  | exponent (negative : Bool) (n places : ℕ)
  | exponentSigned (negative : Bool) (n places : ℕ) (below : Bool)
  | exponentDigits (negative : Bool) (n places : ℕ) (below : Bool) (k : ℕ)

/-- The exponent character. -/
def isExponent (b : UInt8) : Bool := b == 69 || b == 101

/-- The next character of a decimal fraction. -/
def decimalStep : DecimalState → UInt8 → Option DecimalState
  | .start, b =>
    if b = 46 then some (.point false 0 0 false)
    else ((sign b).map .signed).or ((digit b).map (.whole false))
  | .signed negative, b =>
    if b = 46 then some (.point negative 0 0 false) else (digit b).map (.whole negative)
  | .whole negative n, b =>
    if b = 46 then some (.point negative n 0 true)
    else if isExponent b then some (.exponent negative n 0)
    else (digit b).map fun d => .whole negative (10 * n + d)
  | .point negative n places digits, b =>
    if digits && isExponent b then some (.exponent negative n places)
    else (digit b).map fun d => .point negative (10 * n + d) (places + 1) true
  | .exponent negative n places, b =>
    ((sign b).map (.exponentSigned negative n places)).or
      ((digit b).map (.exponentDigits negative n places false))
  | .exponentSigned negative n places below, b =>
    (digit b).map (.exponentDigits negative n places below)
  | .exponentDigits negative n places below k, b =>
    (digit b).map fun d => .exponentDigits negative n places below (10 * k + d)

/-- The decimal fraction that has been read. -/
def DecimalState.value : DecimalState → Option ℚ
  | .whole negative n => some (withSign negative n)
  | .point negative n places true => some (withSign negative (n / 10 ^ places))
  | .exponentDigits negative n places below k =>
    some (withSign negative (n / 10 ^ places * (if below then (10 ^ k)⁻¹ else 10 ^ k)))
  | _ => none

/-- The decimal fraction at the start of a text, and what is behind the characters read. -/
def scanDecimal (text : List UInt8) : Option ℚ × List UInt8 :=
  let m := munch decimalStep .start text
  (m.1.value, m.2)

/-! ### Numerals end at white space -/

section Space

variable {b : UInt8} (h : isSpace b = true)

include h

theorem toNat_space : b.toNat = 32 ∨ 9 ≤ b.toNat ∧ b.toNat ≤ 13 := by
  simpa [isSpace, UInt8.le_iff_toNat_le, ← UInt8.toNat_inj] using h

theorem ne_of_space {c : UInt8} (hc : isSpace c = false) : b ≠ c := by
  rintro rfl
  rw [h] at hc
  cases hc

theorem digit_space : digit b = none := by
  have hb := toNat_space h
  refine if_neg fun hd => ?_
  rw [UInt8.le_iff_toNat_le, UInt8.le_iff_toNat_le] at hd
  change 48 ≤ b.toNat ∧ b.toNat ≤ 57 at hd
  omega

theorem sign_space : sign b = none :=
  (if_neg (ne_of_space h rfl)).trans (if_neg (ne_of_space h rfl))

theorem isExponent_space : isExponent b = false := by
  rw [isExponent, beq_false_of_ne (ne_of_space h rfl), beq_false_of_ne (ne_of_space h rfl),
    Bool.or_false]

end Space

theorem integerStep_space (q : IntegerState) (b : UInt8) (h : isSpace b = true) :
    integerStep q b = none := by
  cases q <;> simp [integerStep, digit_space h, sign_space h]

theorem decimalStep_space (q : DecimalState) (b : UInt8) (h : isSpace b = true) :
    decimalStep q b = none := by
  have hpoint : b ≠ 46 := ne_of_space h rfl
  cases q <;>
    simp [decimalStep, digit_space h, sign_space h, isExponent_space h, hpoint]

/-! ### Decimal expansions -/

section Digits

variable {c : Char} (h : c.isDigit)

include h

theorem toNat_toUInt8 : c.toUInt8.toNat = c.toNat ∧ 48 ≤ c.toNat ∧ c.toNat ≤ 57 := by
  have hc : 48 ≤ c.toNat ∧ c.toNat ≤ 57 := Char.isDigit_iff_toNat.mp h
  refine ⟨?_, hc⟩
  rw [Char.toUInt8, UInt32.toNat_toUInt8]
  exact Nat.mod_eq_of_lt (show c.toNat < 2 ^ 8 by omega)

theorem digit_toUInt8 : digit c.toUInt8 = some (c.toNat - 48) := by
  obtain ⟨hbyte, hlow, hhigh⟩ := toNat_toUInt8 h
  have hrange : 48 ≤ c.toUInt8 ∧ c.toUInt8 ≤ 57 := by
    rw [UInt8.le_iff_toNat_le, UInt8.le_iff_toNat_le, hbyte]
    exact ⟨hlow, hhigh⟩
  rw [digit, if_pos hrange, hbyte]

theorem sign_toUInt8 : sign c.toUInt8 = none := by
  obtain ⟨hbyte, hlow, -⟩ := toNat_toUInt8 h
  have hne (b : UInt8) (hb : b.toNat < 48) : c.toUInt8 ≠ b := fun heq => by
    rw [← heq, hbyte] at hb
    omega
  rw [sign, if_neg (hne 43 (by decide)), if_neg (hne 45 (by decide))]

end Digits

theorem munch_digits {digits : List Char} (h : ∀ c ∈ digits, c.isDigit) (negative : Bool)
    (n : ℕ) : munch integerStep (.digits negative n) (digits.map Char.toUInt8) =
      (.digits negative (Nat.ofDigitChars 10 digits n), []) := by
  induction digits generalizing n with
  | nil => simp [munch]
  | cons c digits ih =>
    obtain ⟨hc, hdigits⟩ := List.forall_mem_cons.mp h
    rw [List.map_cons, munch, integerStep, digit_toUInt8 hc, Nat.ofDigitChars_cons]
    exact ih hdigits _

/-- A decimal expansion is read from a state in which a number may start. -/
theorem munch_toDigits {q : IntegerState} {negative : Bool}
    (hq : ∀ b d, sign b = none → digit b = some d → integerStep q b = some (.digits negative d))
    (n : ℕ) : munch integerStep q ((Nat.toDigits 10 n).map Char.toUInt8) =
      (.digits negative n, []) := by
  have hdigits : ∀ c ∈ Nat.toDigits 10 n, c.isDigit := fun c hc =>
    Nat.isDigit_of_mem_toDigits (by omega) le_rfl hc
  have hvalue := Nat.ofDigitChars_ten_toDigits (n := n)
  obtain ⟨c, digits, heq⟩ := List.exists_cons_of_ne_nil (Nat.toDigits_ne_nil (b := 10) (n := n))
  rw [heq] at hdigits hvalue ⊢
  rw [Nat.ofDigitChars_cons, Nat.mul_zero, Nat.zero_add] at hvalue
  obtain ⟨hc, hdigits⟩ := List.forall_mem_cons.mp hdigits
  rw [List.map_cons, munch, hq _ _ (sign_toUInt8 hc) (digit_toUInt8 hc)]
  exact (munch_digits hdigits negative _).trans
    (congrArg (fun k => (IntegerState.digits negative k, [])) hvalue)

/-- A decimal expansion behind an optional minus is read as a whole. -/
theorem scanInteger_numeral (negative : Bool) (n : ℕ) :
    scanInteger ((if negative then [45] else []) ++ (Nat.toDigits 10 n).map Char.toUInt8) =
      (some (withSign negative (n : ℤ)), []) := by
  cases negative with
  | true =>
    have hmunch : munch integerStep (.signed true) ((Nat.toDigits 10 n).map Char.toUInt8) =
        (.digits true n, []) :=
      munch_toDigits (fun b d _ hd => by rw [integerStep, hd, Option.map_some]) n
    have hsign : munch integerStep .start (45 :: (Nat.toDigits 10 n).map Char.toUInt8) =
        munch integerStep (.signed true) ((Nat.toDigits 10 n).map Char.toUInt8) := rfl
    rw [if_pos rfl, List.singleton_append, scanInteger, hsign, hmunch]
    rfl
  | false =>
    have hmunch : munch integerStep .start ((Nat.toDigits 10 n).map Char.toUInt8) =
        (.digits false n, []) :=
      munch_toDigits (fun b d hs hd => by
        rw [integerStep, hs, hd, Option.map_none, Option.none_or, Option.map_some]) n
    rw [if_neg Bool.false_ne_true, List.nil_append, scanInteger, hmunch]
    rfl

end DecimalText
