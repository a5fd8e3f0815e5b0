import Mathlib.Algebra.Order.Round
import Mathlib.Data.Int.Log
import Mathlib.Data.Rat.Floor
import Mathlib.Tactic.Linarith

/-!
# Rounding to 53 bits

Round to nearest, ties to even, at the precision of binary64: a rational is divided by the unit in
its last place, rounded to an integer and multiplied back. The range of exponents is not limited, so
there is neither overflow nor a subnormal number.

A quotient of integers in a known binade is rounded by integer arithmetic: `roundEven_div_eq_iff`
says which integer the quotient becomes.

## Main definitions

* `Binary64.roundEven`, `Binary64.ulp`, `Binary64.round`.

## Main results

* `Binary64.roundEven_eq_iff`, `Binary64.roundEven_div_eq_iff`.
* `Binary64.round_div_two_pow`: rounding in a given binade.
* `Binary64.round_eq_intCast_iff`: when rounding gives an integer.
-/

namespace Binary64

/-- The nearest integer, and the even one of two that are equally near. -/
def roundEven (x : ℚ) : ℤ :=
  if Int.fract x < 1 / 2 then ⌊x⌋
  else if 1 / 2 < Int.fract x then ⌊x⌋ + 1
  else if Even ⌊x⌋ then ⌊x⌋ else ⌊x⌋ + 1

/-- The unit in the last of 53 places. -/
def ulp (x : ℚ) : ℚ := 2 ^ (Int.log 2 |x| - 52)

/-- The result of an operation whose exact value is `x`. -/
def round (x : ℚ) : ℚ := roundEven (x / ulp x) * ulp x

theorem ulp_pos (x : ℚ) : 0 < ulp x := zpow_pos zero_lt_two _

/-! ### Rounding to an integer -/

/-- `k` is nearest to `x`, and even when another integer is as near. -/
def IsNearestEven (x : ℚ) (k : ℤ) : Prop := |x - k| < 1 / 2 ∨ |x - k| = 1 / 2 ∧ Even k

theorem isNearestEven_roundEven (x : ℚ) : IsNearestEven x (roundEven x) := by
  have hdown : x - ⌊x⌋ = Int.fract x := Int.self_sub_floor x
  have hup : x - ((⌊x⌋ + 1 : ℤ) : ℚ) = -(1 - Int.fract x) := by
    push_cast
    linarith
  have hnonneg := Int.fract_nonneg x
  have hlt := Int.fract_lt_one x
  rw [roundEven, IsNearestEven]
  split_ifs with hlow hhigh heven
  · rw [hdown, abs_of_nonneg hnonneg]
    exact Or.inl hlow
  · rw [hup, abs_neg, abs_of_nonneg (by linarith)]
    exact Or.inl (by linarith)
  · rw [hdown, abs_of_nonneg hnonneg]
    exact Or.inr ⟨by linarith, heven⟩
  · rw [hup, abs_neg, abs_of_nonneg (by linarith)]
    exact Or.inr ⟨by linarith, (Int.not_even_iff_odd.mp heven).add_one⟩

theorem IsNearestEven.abs_sub_le {x : ℚ} {k : ℤ} (h : IsNearestEven x k) : |x - k| ≤ 1 / 2 :=
  h.elim le_of_lt fun h => h.1.le

theorem IsNearestEven.unique {x : ℚ} {k k' : ℤ} (h : IsNearestEven x k) (h' : IsNearestEven x k') :
    k = k' := by
  have htriangle : |((k - k' : ℤ) : ℚ)| ≤ |x - k'| + |x - k| := by
    rw [Int.cast_sub, show (k : ℚ) - k' = x - k' - (x - k) by ring]
    exact abs_sub _ _
  have hclose (hlt : |((k - k' : ℤ) : ℚ)| < 1) : k = k' := by
    rw [← Int.cast_abs] at hlt
    exact sub_eq_zero.mp (Int.abs_lt_one_iff.mp (by exact_mod_cast hlt))
  have hle := h.abs_sub_le
  have hle' := h'.abs_sub_le
  rcases h with h | ⟨-, heven⟩
  · exact hclose (by linarith)
  rcases h' with h' | ⟨-, heven'⟩
  · exact hclose (by linarith)
  -- Two neighbours are not both even.
  have hone : |k - k'| ≤ 1 := by
    have hcast : |((k - k' : ℤ) : ℚ)| ≤ 1 := by linarith
    rw [← Int.cast_abs] at hcast
    exact_mod_cast hcast
  obtain ⟨i, rfl⟩ := heven
  obtain ⟨j, rfl⟩ := heven'
  have hbounds := abs_le.mp hone
  omega

theorem roundEven_eq_iff {x : ℚ} {k : ℤ} : roundEven x = k ↔ IsNearestEven x k :=
  ⟨fun h => h ▸ isNearestEven_roundEven x, (isNearestEven_roundEven x).unique⟩

@[simp] theorem roundEven_intCast (k : ℤ) : roundEven k = k :=
  roundEven_eq_iff.mpr (Or.inl (by simp))

/-- Rounding a quotient of integers, in integer arithmetic. -/
theorem roundEven_div_eq_iff {a m k : ℤ} (hm : 0 < m) :
    roundEven (a / m) = k ↔
      (2 * k - 1) * m < 2 * a ∧ 2 * a < (2 * k + 1) * m ∨
        ((2 * k - 1) * m = 2 * a ∨ 2 * a = (2 * k + 1) * m) ∧ Even k := by
  have hcast : (0 : ℚ) < m := by exact_mod_cast hm
  have hsub : (a / m : ℚ) - k = (a - k * m) / m := by
    field_simp
  rw [roundEven_eq_iff, IsNearestEven, hsub, abs_lt, abs_eq (by norm_num), lt_div_iff₀ hcast,
    div_lt_iff₀ hcast, div_eq_iff hcast.ne', div_eq_iff hcast.ne', or_comm (a := _ = 1 / 2 * _)]
  refine or_congr (and_congr ?_ ?_) (and_congr_left' (or_congr ?_ ?_))
  · rw [← @Int.cast_lt ℚ]
    push_cast
    constructor <;> intro h <;> linarith
  · rw [← @Int.cast_lt ℚ]
    push_cast
    constructor <;> intro h <;> linarith
  · rw [← @Int.cast_inj ℚ]
    push_cast
    constructor <;> intro h <;> linarith
  · rw [← @Int.cast_inj ℚ]
    push_cast
    constructor <;> intro h <;> linarith

/-! ### Rounding in a binade -/

theorem log_eq_of_mem {x : ℚ} {e : ℤ} (hlo : 2 ^ e ≤ x) (hhi : x < 2 ^ (e + 1)) :
    Int.log 2 x = e := by
  have hpos : 0 < x := (zpow_pos (by norm_num) e).trans_le hlo
  have hle : e ≤ Int.log 2 x :=
    (Int.zpow_le_iff_le_log (by norm_num) hpos).mp (by exact_mod_cast hlo)
  have hlt : Int.log 2 x < e + 1 :=
    (Int.lt_zpow_iff_log_lt (by norm_num) hpos).mp (by exact_mod_cast hhi)
  omega

/-- A number with a mantissa of 53 bits before the point is rounded like its mantissa. -/
theorem round_div_two_pow {x : ℚ} (hlo : 2 ^ 52 ≤ x) (hhi : x < 2 ^ 53) (s : ℕ) :
    round (x / 2 ^ s) = roundEven x / 2 ^ s := by
  have hpow : (0 : ℚ) < 2 ^ s := by positivity
  have hpos : 0 < x / 2 ^ s := div_pos (lt_of_lt_of_le (by norm_num) hlo) hpow
  have hlog : Int.log 2 (x / 2 ^ s) = 52 - s := by
    apply log_eq_of_mem
    · rw [zpow_sub₀ two_ne_zero, zpow_natCast]
      exact (div_le_div_iff_of_pos_right hpow).mpr (by exact_mod_cast hlo)
    · rw [show (52 - s + 1 : ℤ) = 53 - s by ring, zpow_sub₀ two_ne_zero, zpow_natCast]
      exact (div_lt_div_iff_of_pos_right hpow).mpr (by exact_mod_cast hhi)
  have hulp : ulp (x / 2 ^ s) = (2 ^ s)⁻¹ := by
    rw [ulp, abs_of_pos hpos, hlog, sub_sub_cancel_left, zpow_neg, zpow_natCast]
  rw [round, hulp, div_inv_eq_mul, div_mul_cancel₀ _ hpow.ne', div_eq_mul_inv]

/-- The mantissa of an integer of at most 53 bits. -/
theorem mantissa_bounds {n : ℕ} (hpos : 0 < n) (hlt : n < 2 ^ 53) :
    2 ^ 52 ≤ n * 2 ^ (52 - Nat.log 2 n) ∧ n * 2 ^ (52 - Nat.log 2 n) < 2 ^ 53 := by
  have hlog : Nat.log 2 n < 53 := Nat.log_lt_of_lt_pow hpos.ne' hlt
  have hadd : Nat.log 2 n + (52 - Nat.log 2 n) = 52 := by omega
  constructor
  · calc 2 ^ 52 = 2 ^ Nat.log 2 n * 2 ^ (52 - Nat.log 2 n) := by rw [← pow_add, hadd]
      _ ≤ n * 2 ^ (52 - Nat.log 2 n) := Nat.mul_le_mul_right _ (Nat.pow_log_le_self 2 hpos.ne')
  · calc n * 2 ^ (52 - Nat.log 2 n)
        < 2 ^ (Nat.log 2 n + 1) * 2 ^ (52 - Nat.log 2 n) :=
          Nat.mul_lt_mul_of_pos_right (Nat.lt_pow_succ_log_self (by norm_num) n) (by positivity)
      _ = 2 ^ 53 := by rw [← pow_add, Nat.add_right_comm, hadd]

/-- An integer of at most 53 bits is a binary64 number. -/
theorem round_natCast {n : ℕ} (hpos : 0 < n) (hlt : n < 2 ^ 53) : round n = n := by
  obtain ⟨hlo, hhi⟩ := mantissa_bounds hpos hlt
  generalize 52 - Nat.log 2 n = s at hlo hhi
  have hdiv : (n : ℚ) = ((n * 2 ^ s : ℕ) : ℤ) / 2 ^ s := by
    push_cast
    rw [mul_div_cancel_right₀ _ (by positivity)]
  rw [hdiv, round_div_two_pow (by exact_mod_cast hlo) (by exact_mod_cast hhi), roundEven_intCast]

/-- The rounded value is an integer when that is within half a unit in the last place: an integer is
an even multiple of the unit. -/
theorem round_eq_intCast_iff {x : ℚ} {n : ℤ} (hlt : |x| < 2 ^ 52) :
    round x = n ↔ |x - n| ≤ ulp x / 2 := by
  have hlog : Int.log 2 |x| < 52 := by
    rcases (abs_nonneg x).eq_or_lt with hzero | hpos
    · simp [← hzero]
    · exact (Int.lt_zpow_iff_log_lt (by norm_num) hpos).mp (by exact_mod_cast hlt)
  obtain ⟨k, hk⟩ : ∃ k : ℕ, Int.log 2 |x| - 52 = -(k + 1 : ℕ) :=
    ⟨(51 - Int.log 2 |x|).toNat, by omega⟩
  have hpow : (0 : ℚ) < 2 ^ (k + 1) := by positivity
  have hulp : ulp x = (2 ^ (k + 1))⁻¹ := by rw [ulp, hk, zpow_neg, zpow_natCast]
  have heven : Even (n * 2 ^ (k + 1)) := (even_two.pow_of_ne_zero (Nat.succ_ne_zero k)).mul_left n
  have hscale : |x * 2 ^ (k + 1) - (n * 2 ^ (k + 1) : ℤ)| = |x - n| * 2 ^ (k + 1) := by
    push_cast
    rw [← sub_mul, abs_mul, abs_of_pos hpow]
  rw [round, hulp, div_inv_eq_mul, ← div_eq_mul_inv, div_eq_iff hpow.ne']
  have hcast : (roundEven (x * 2 ^ (k + 1)) : ℚ) = n * 2 ^ (k + 1) ↔
      roundEven (x * 2 ^ (k + 1)) = n * 2 ^ (k + 1) := by
    exact_mod_cast Iff.rfl
  rw [hcast, roundEven_eq_iff, IsNearestEven, hscale, and_iff_left heven, ← le_iff_lt_or_eq,
    ← le_div_iff₀ hpow, inv_eq_one_div, div_right_comm]

theorem round_natCast_of_lt {n : ℕ} (hlt : n < 2 ^ 52) : round n = n := by
  have hround := round_eq_intCast_iff (x := n) (n := n) (by simpa using by exact_mod_cast hlt)
  rw [Int.cast_natCast, sub_self, abs_zero] at hround
  exact hround.mpr (half_pos (ulp_pos n)).le

end Binary64
