import Mathlib.Algebra.Order.Floor.Semifield
import Mathlib.NumberTheory.Rayleigh
import Mathlib.NumberTheory.Real.GoldenRatio

/-!
# Multiples of the golden ratio

The floors of the multiples of the golden ratio, in integer arithmetic: an integer square root gives
them exactly. They make up the lower Wythoff sequence; the numbers it leaves out are the upper one,
the floors of the multiples of the square of the golden ratio, and the fractional part of a multiple
tells which sequence its factor belongs to. No multiple of the inverse comes close to an integer.

## Main results

* `floor_mul_goldenRatio`, `ceil_div_goldenRatio`: floors and ceilings by integer square roots.
* `exists_floor_eq_iff_fract`, `floor_ceil_div_eq_iff`, `floor_goldenRatio_sq_iff`: the two
  sequences.
* `lt_abs_div_goldenRatio_sub`: the distance of multiples of the inverse from the integers.
-/

open Real

/-- The inverse of the golden ratio is one less. -/
theorem inv_goldenRatio_eq : goldenRatio⁻¹ = goldenRatio - 1 := by
  rw [inv_goldenRatio, ← one_sub_goldenConj]
  ring

theorem div_goldenRatio_eq (x : ℝ) : x / goldenRatio = x * goldenRatio - x := by
  rw [div_eq_mul_inv, inv_goldenRatio_eq]
  ring

/-! ### Integer square roots -/

section Sqrt

theorem natCast_mul_goldenRatio (x : ℕ) :
    (x : ℝ) * goldenRatio = (x + √((5 * x ^ 2 : ℕ) : ℝ)) / 2 := by
  have hroot : √((5 * x ^ 2 : ℕ) : ℝ) = √5 * x := by
    push_cast
    rw [sqrt_mul (by norm_num), sqrt_sq (Nat.cast_nonneg x)]
  rw [hroot, goldenRatio]
  ring

/-- The floor of a multiple of the golden ratio. -/
theorem floor_mul_goldenRatio (x : ℕ) :
    ⌊(x : ℝ) * goldenRatio⌋₊ = (x + Nat.sqrt (5 * x ^ 2)) / 2 := by
  rw [natCast_mul_goldenRatio, Nat.floor_div_ofNat, add_comm (x : ℝ),
    Nat.floor_add_natCast (sqrt_nonneg _), nat_floor_real_sqrt_eq_nat_sqrt, Nat.add_comm]

/-- The ceiling of a multiple of the inverse. -/
theorem ceil_div_goldenRatio {x : ℕ} (hx : x ≠ 0) :
    ⌈(x : ℝ) / goldenRatio⌉₊ = (Nat.sqrt (5 * x ^ 2) - x) / 2 + 1 := by
  have hfloor : ⌊(x : ℝ) / goldenRatio⌋₊ = (Nat.sqrt (5 * x ^ 2) - x) / 2 := by
    have heq : (x : ℝ) / goldenRatio = (√((5 * x ^ 2 : ℕ) : ℝ) - x) / 2 := by
      rw [div_goldenRatio_eq, natCast_mul_goldenRatio]
      ring
    rw [heq, Nat.floor_div_ofNat, Nat.floor_sub_natCast, nat_floor_real_sqrt_eq_nat_sqrt]
  -- A multiple of an irrational number is above its floor.
  have hirr : Irrational ((x : ℝ) / goldenRatio) := goldenRatio_irrational.natCast_div hx
  have hpos : 0 ≤ (x : ℝ) / goldenRatio := div_nonneg (Nat.cast_nonneg x) goldenRatio_pos.le
  rw [← hfloor, Nat.ceil_eq_iff (Nat.succ_ne_zero _), Nat.succ_eq_add_one, Nat.add_sub_cancel]
  refine ⟨lt_of_le_of_ne (Nat.floor_le hpos) fun heq => ?_, ?_⟩
  · exact hirr.ne_nat _ heq.symm
  · push_cast
    exact (Nat.lt_floor_add_one _).le

end Sqrt

/-! ### The two sequences -/

section Wythoff

/-- The fractional part tells whether a number is the floor of a multiple. -/
theorem exists_floor_eq_iff_fract {n : ℤ} (hn : n ≠ 0) :
    (∃ k : ℤ, ⌊(k : ℝ) * goldenRatio⌋ = n) ↔
      2 - goldenRatio < Int.fract ((n : ℝ) * goldenRatio) := by
  have hirr : Irrational ((n : ℝ) * goldenRatio) := goldenRatio_irrational.intCast_mul hn
  have hpos : 0 < Int.fract ((n : ℝ) * goldenRatio) := Int.fract_pos.mpr (hirr.ne_int _)
  have hsum := Int.floor_add_fract ((n : ℝ) * goldenRatio)
  -- In terms of the inverse, `k` lies in an interval of the length of the inverse.
  have hcand (k : ℤ) : ⌊(k : ℝ) * goldenRatio⌋ = n ↔
      n * goldenRatio - n ≤ k ∧ k < n * goldenRatio - n + (goldenRatio - 1) := by
    rw [Int.floor_eq_iff, ← div_le_iff₀ goldenRatio_pos, ← lt_div_iff₀ goldenRatio_pos,
      div_goldenRatio_eq, div_goldenRatio_eq]
    refine and_congr_right fun _ => ?_
    rw [add_mul, one_mul]
    constructor
    · intro h
      linarith
    · intro h
      linarith
  constructor
  · rintro ⟨k, hk⟩
    obtain ⟨hlow, hhigh⟩ := (hcand k).mp hk
    have hlt : (⌊(n : ℝ) * goldenRatio⌋ - n : ℝ) < k := by linarith
    have hint : ⌊(n : ℝ) * goldenRatio⌋ - n + 1 ≤ k := by
      have hcast : ((⌊(n : ℝ) * goldenRatio⌋ - n : ℤ) : ℝ) < k := by push_cast; exact hlt
      exact Int.add_one_le_iff.mpr (Int.cast_lt.mp hcast)
    have hreal : (⌊(n : ℝ) * goldenRatio⌋ - n + 1 : ℝ) ≤ k := by exact_mod_cast hint
    linarith
  · intro h
    have hone := Int.fract_lt_one ((n : ℝ) * goldenRatio)
    refine ⟨⌊(n : ℝ) * goldenRatio⌋ - n + 1, (hcand _).mpr ⟨?_, ?_⟩⟩
    · push_cast
      linarith
    · push_cast
      linarith

/-- Positive numbers are floors of positive multiples only. -/
theorem exists_natFloor_eq_iff {x : ℝ} (hx : 0 < x) {n : ℕ} (hn : n ≠ 0) :
    (∃ k : ℕ, 1 ≤ k ∧ ⌊(k : ℝ) * x⌋₊ = n) ↔ ∃ k : ℤ, 0 < k ∧ ⌊(k : ℝ) * x⌋ = n := by
  constructor
  · rintro ⟨k, hk, rfl⟩
    refine ⟨k, Int.natCast_pos.mpr hk, ?_⟩
    rw [Int.cast_natCast, Int.natCast_floor_eq_floor (mul_nonneg (Nat.cast_nonneg k) hx.le)]
  · rintro ⟨k, hk, hfloor⟩
    lift k to ℕ using hk.le
    refine ⟨k, Int.natCast_pos.mp hk, Int.natCast_inj.mp ?_⟩
    rwa [Int.natCast_floor_eq_floor (mul_nonneg (Nat.cast_nonneg k) hx.le), ← Int.cast_natCast]

theorem pos_of_floor_mul_eq {x : ℝ} (hx : 0 < x) {n : ℕ} (hn : n ≠ 0) {k : ℤ}
    (hk : ⌊(k : ℝ) * x⌋ = n) : 0 < k := by
  have hle : (n : ℝ) ≤ k * x := by
    have hfloor := Int.floor_le ((k : ℝ) * x)
    rwa [hk, Int.cast_natCast] at hfloor
  have hpos : (0 : ℝ) < k * x := (Nat.cast_pos.mpr (Nat.pos_of_ne_zero hn)).trans_le hle
  exact Int.cast_pos.mp ((pos_iff_pos_of_mul_pos hpos).mpr hx)

/-- One candidate decides whether a number is the floor of a multiple. -/
theorem floor_ceil_div_eq_iff {n : ℕ} (hn : n ≠ 0) :
    ⌊(⌈(n : ℝ) / goldenRatio⌉₊ : ℝ) * goldenRatio⌋₊ = n ↔
      ∃ k : ℕ, 1 ≤ k ∧ ⌊(k : ℝ) * goldenRatio⌋₊ = n := by
  constructor
  · intro h
    have hpos : 0 < (n : ℝ) / goldenRatio :=
      div_pos (Nat.cast_pos.mpr (Nat.pos_of_ne_zero hn)) goldenRatio_pos
    exact ⟨_, Nat.one_le_ceil_iff.mpr hpos, h⟩
  · rintro ⟨k, hk, hfloor⟩
    have hbounds := (Nat.floor_eq_iff (mul_nonneg (Nat.cast_nonneg k) goldenRatio_pos.le)).mp hfloor
    have hceil : ⌈(n : ℝ) / goldenRatio⌉₊ = k := by
      rw [Nat.ceil_eq_iff (by omega)]
      constructor
      · rw [lt_div_iff₀ goldenRatio_pos, Nat.cast_sub hk]
        have hone := one_lt_goldenRatio
        push_cast
        linarith
      · rw [div_le_iff₀ goldenRatio_pos]
        exact hbounds.1
    rw [hceil, hfloor]

theorem holderConjugate_goldenRatio_sq : goldenRatio.HolderConjugate (goldenRatio ^ 2) := by
  refine Real.holderConjugate_iff.mpr ⟨one_lt_goldenRatio, ?_⟩
  rw [← inv_pow, inv_goldenRatio_eq]
  linear_combination goldenRatio_sq

/-- A positive number is in exactly one of the two sequences. -/
theorem floor_goldenRatio_sq_iff {n : ℕ} (hn : n ≠ 0) :
    (∃ k : ℕ, 1 ≤ k ∧ ⌊(k : ℝ) * goldenRatio ^ 2⌋₊ = n) ↔
      ¬ ∃ k : ℕ, 1 ≤ k ∧ ⌊(k : ℝ) * goldenRatio⌋₊ = n := by
  rw [exists_natFloor_eq_iff (pow_pos goldenRatio_pos 2) hn,
    exists_natFloor_eq_iff goldenRatio_pos hn]
  have hmem : (n : ℤ) ∈ {m : ℤ | 0 < m} := Int.natCast_pos.mpr (Nat.pos_of_ne_zero hn)
  rw [← goldenRatio_irrational.beattySeq_symmDiff_beattySeq_pos holderConjugate_goldenRatio_sq]
    at hmem
  rcases hmem with ⟨hfirst, hsecond⟩ | ⟨hsecond, hfirst⟩
  · exact iff_of_false hsecond (not_not.mpr hfirst)
  · exact iff_of_true hsecond hfirst

end Wythoff

/-! ### Distance from the integers -/

section Distance

/-- The norm of `m - d / φ` is a nonzero integer. -/
theorem one_le_abs_norm {d : ℤ} (hd : d ≠ 0) (m : ℤ) :
    1 ≤ |(d : ℝ) / goldenRatio - m| * |(m : ℝ) + d * goldenRatio| := by
  have hnorm : ((d : ℝ) / goldenRatio - m) * (m + d * goldenRatio) =
      ((d ^ 2 - m * d - m ^ 2 : ℤ) : ℝ) := by
    rw [div_goldenRatio_eq]
    push_cast
    linear_combination (d : ℝ) ^ 2 * goldenRatio_sq
  have hirr : Irrational ((d : ℝ) * goldenRatio) := goldenRatio_irrational.intCast_mul hd
  have hirr' : Irrational ((d : ℝ) / goldenRatio) := goldenRatio_irrational.intCast_div hd
  have hne : ((d : ℝ) / goldenRatio - m) * (m + d * goldenRatio) ≠ 0 := by
    refine mul_ne_zero (sub_ne_zero.mpr (hirr'.ne_int m)) fun hzero => ?_
    refine hirr.ne_int (-m) ?_
    push_cast
    linarith
  rw [← abs_mul, hnorm, ← Int.cast_abs]
  rw [hnorm, Int.cast_ne_zero] at hne
  exact_mod_cast Int.one_le_abs hne

/-- The multiples of the inverse by less than `n` are more than `1 / (3 * n)` from the integers. -/
theorem lt_abs_div_goldenRatio_sub {n : ℕ} {d : ℤ} (hd : d ≠ 0) (hdn : |d| < n) (m : ℤ) :
    1 / (3 * n : ℝ) < |(d : ℝ) / goldenRatio - m| := by
  by_contra! hle
  have hn : (1 : ℝ) ≤ n := by
    have hone := Int.one_le_abs hd
    have hcast : (1 : ℤ) ≤ n := by omega
    exact_mod_cast hcast
  have hd' : |(d : ℝ)| ≤ n - 1 := by
    have hcast : |d| ≤ (n : ℤ) - 1 := by omega
    have hreal : ((|d| : ℤ) : ℝ) ≤ ((n - 1 : ℤ) : ℝ) := Int.cast_le.mpr hcast
    rw [Int.cast_abs] at hreal
    push_cast at hreal
    exact hreal
  -- The other factor of the norm differs from this one by `d * √5`.
  have hother : |(m : ℝ) + d * goldenRatio| ≤ |(d : ℝ) / goldenRatio - m| + 3 * |(d : ℝ)| := by
    have hsplit : (m : ℝ) + d * goldenRatio =
        -((d : ℝ) / goldenRatio - m) + (2 * goldenRatio - 1) * d := by
      rw [div_goldenRatio_eq]
      ring
    have hcoef : |2 * goldenRatio - 1| ≤ 3 := by
      rw [abs_le]
      constructor
      · linarith [one_lt_goldenRatio]
      · linarith [goldenRatio_lt_two]
    calc |(m : ℝ) + d * goldenRatio|
        ≤ |-((d : ℝ) / goldenRatio - m)| + |(2 * goldenRatio - 1) * d| := by
          rw [hsplit]
          exact abs_add_le _ _
      _ ≤ |(d : ℝ) / goldenRatio - m| + 3 * |(d : ℝ)| := by
          rw [abs_neg, abs_mul]
          gcongr
  have hprod : |(d : ℝ) / goldenRatio - m| * |(m : ℝ) + d * goldenRatio| ≤
      1 / (3 * n) * (1 / (3 * n) + 3 * (n - 1)) := by
    gcongr
    exact hother.trans (by linarith)
  have hsmall : 1 / (3 * n : ℝ) * (1 / (3 * n) + 3 * (n - 1)) < 1 := by
    have hinv : 1 / (3 * n : ℝ) ≤ 1 / 3 := by
      gcongr
      linarith
    have hcancel : 1 / (3 * n : ℝ) * (3 * n) = 1 := one_div_mul_cancel (by positivity)
    have hpos : 0 < 1 / (3 * n : ℝ) := by positivity
    nlinarith
  exact absurd (one_le_abs_norm hd m) (hprod.trans_lt hsmall).not_ge

end Distance
