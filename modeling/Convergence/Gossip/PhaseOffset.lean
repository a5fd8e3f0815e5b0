import Convergence.Gossip.WythoffScheduler
import Convergence.Library.GoldenSection

/-!
# Phase offsets

`get_phase_offset` in real arithmetic: the offset of node `i` is the fractional part of `i / φ`, in
intervals. The offsets of two nodes are as far apart on the circle as a multiple of `1 / φ` is from
the integers, which for clusters of `n` nodes is more than `1 / (3 * n)`.

## Main definitions

* `fmod`: the C function on real numbers.
* `WythoffScheduler.getPhaseOffset`, `circularDist`.

## Main results

* `WythoffScheduler.phaseOffsets_spread`.
-/

namespace Convergence

open Real

/-- `std::fmod` on real numbers: the remainder of the division rounded towards zero. -/
noncomputable def fmod (x y : ℝ) : ℝ := x - y * if 0 ≤ x / y then ⌊x / y⌋ else ⌈x / y⌉

/-- The distance of two points on a circle of length `T`. -/
noncomputable def circularDist (T a b : ℝ) : ℝ := min |a - b| (T - |a - b|)

/-- `WythoffScheduler::get_phase_offset`, in real arithmetic. -/
noncomputable def WythoffScheduler.getPhaseOffset (_ : WythoffScheduler) (nodeId : ℕ)
    (interval : ℝ) : ℝ :=
  fmod (nodeId * interval / goldenRatio) interval

variable {T : ℝ}

/-- A remainder is a fractional part. -/
theorem fmod_eq_mul_fract (hT : 0 < T) {x : ℝ} (hx : 0 ≤ x) : fmod x T = T * Int.fract (x / T) := by
  have hdiv : 0 ≤ x / T := div_nonneg hx hT.le
  have hmul : T * (x / T) = x := mul_div_cancel₀ x hT.ne'
  rw [fmod, if_pos hdiv, Int.fract, mul_sub, hmul]

/-- Two points of the circle, in units of its length, are as far apart as their difference is from
the integers. -/
theorem lt_circularDist_mul_fract (hT : 0 < T) {x y ε : ℝ}
    (h : ∀ m : ℤ, ε < |x - y - m|) :
    T * ε < circularDist T (T * Int.fract x) (T * Int.fract y) := by
  have hdiff : T * Int.fract x - T * Int.fract y = T * (x - y - (⌊x⌋ - ⌊y⌋ : ℤ)) := by
    rw [Int.fract, Int.fract]
    push_cast
    ring
  have habs : |T * Int.fract x - T * Int.fract y| = T * |x - y - (⌊x⌋ - ⌊y⌋ : ℤ)| := by
    rw [hdiff, abs_mul, abs_of_pos hT]
  rw [circularDist, habs]
  refine lt_min (mul_lt_mul_of_pos_left (h _) hT) ?_
  -- Round the other way, the distance is that to the next integer on the other side.
  have hother : ε < 1 - |x - y - (⌊x⌋ - ⌊y⌋ : ℤ)| := by
    have hlow := h (⌊x⌋ - ⌊y⌋ - 1)
    have hhigh := h (⌊x⌋ - ⌊y⌋ + 1)
    have hx := Int.fract_nonneg x
    have hx' := Int.fract_lt_one x
    have hy := Int.fract_nonneg y
    have hy' := Int.fract_lt_one y
    have hfx := Int.floor_add_fract x
    have hfy := Int.floor_add_fract y
    push_cast at hlow hhigh ⊢
    rcases le_total 0 (x - y - (⌊x⌋ - ⌊y⌋ : ℝ)) with hsign | hsign
    · rw [abs_of_nonneg hsign]
      rw [abs_of_neg (by linarith)] at hhigh
      linarith
    · rw [abs_of_nonpos hsign]
      rw [abs_of_pos (by linarith)] at hlow
      linarith
  calc T * ε < T * (1 - |x - y - (⌊x⌋ - ⌊y⌋ : ℤ)|) := mul_lt_mul_of_pos_left hother hT
    _ = T - T * |x - y - (⌊x⌋ - ⌊y⌋ : ℤ)| := by ring

namespace WythoffScheduler

variable (s : WythoffScheduler)

theorem getPhaseOffset_eq (hT : 0 < T) (i : ℕ) :
    s.getPhaseOffset i T = T * Int.fract ((i : ℝ) / goldenRatio) := by
  have hnonneg : 0 ≤ (i : ℝ) * T / goldenRatio :=
    div_nonneg (mul_nonneg (Nat.cast_nonneg i) hT.le) goldenRatio_pos.le
  have hunits : (i : ℝ) * T / goldenRatio / T = i / goldenRatio := by
    rw [div_right_comm, mul_div_assoc, div_self hT.ne', mul_one]
  rw [getPhaseOffset, fmod_eq_mul_fract hT hnonneg, hunits]

theorem getPhaseOffset_mem (hT : 0 < T) (i : ℕ) :
    0 ≤ s.getPhaseOffset i T ∧ s.getPhaseOffset i T < T := by
  rw [s.getPhaseOffset_eq hT]
  constructor
  · exact mul_nonneg hT.le (Int.fract_nonneg _)
  · exact mul_lt_of_lt_one_right hT (Int.fract_lt_one _)

/-- **Golden-angle offsets stay spread out.** -/
theorem phaseOffsets_spread {n : ℕ} (hT : 0 < T) {i j : ℕ} (hi : i < n) (hj : j < n)
    (hij : i ≠ j) :
    (0 ≤ s.getPhaseOffset i T ∧ s.getPhaseOffset i T < T) ∧
      (0 ≤ s.getPhaseOffset j T ∧ s.getPhaseOffset j T < T) ∧
      T / (3 * n) < circularDist T (s.getPhaseOffset i T) (s.getPhaseOffset j T) := by
  refine ⟨s.getPhaseOffset_mem hT i, s.getPhaseOffset_mem hT j, ?_⟩
  have hdist (m : ℤ) : 1 / (3 * n : ℝ) < |(i : ℝ) / goldenRatio - j / goldenRatio - m| := by
    have hne : (i : ℤ) - j ≠ 0 := by omega
    have hlt : |(i : ℤ) - j| < n := abs_lt.mpr (by omega)
    have h := lt_abs_div_goldenRatio_sub hne hlt m
    push_cast at h
    rwa [sub_div] at h
  rw [s.getPhaseOffset_eq hT, s.getPhaseOffset_eq hT, ← mul_one_div]
  exact lt_circularDist_mul_fract hT hdist

/-- Nodes 1 and 4 of five, over a second. -/
theorem phaseOffsets_spread_five :
    (0 ≤ (new 5).getPhaseOffset 1 1000 ∧ (new 5).getPhaseOffset 1 1000 < 1000) ∧
      (0 ≤ (new 5).getPhaseOffset 4 1000 ∧ (new 5).getPhaseOffset 4 1000 < 1000) ∧
      1000 / (3 * (5 : ℕ)) <
        circularDist 1000 ((new 5).getPhaseOffset 1 1000) ((new 5).getPhaseOffset 4 1000) :=
  phaseOffsets_spread (new 5) (by norm_num) (by omega) (by omega) (by omega)

end WythoffScheduler

end Convergence
