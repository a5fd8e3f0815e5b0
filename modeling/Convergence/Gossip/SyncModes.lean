import Convergence.Gossip.WythoffScheduler
import Convergence.Library.GoldenSection

/-!
# Push rounds and pull rounds

The steps of the scheduler without rounding are those of real arithmetic with the golden ratio. With
them `get_sync_mode` sorts the rounds into the two Wythoff sequences: a round is a pull exactly when
it is the floor of a multiple of the golden ratio, and a push exactly when it is the floor of a
multiple of its square. The code tests one candidate for the first sequence and does not look at the
second.

## Main results

* `GoldenRatio.exact_floorMul`, `GoldenRatio.exact_ceilDiv`: the exact steps.
* `WythoffScheduler.getSyncMode_iff_beatty`.
* `WythoffScheduler.getSyncMode_eq_pull_iff_fract`: the mode of a round by the fractional part of
  its multiple.
-/

namespace Convergence

namespace GoldenRatio

/-- `floor(x * PHI)` in real arithmetic. -/
theorem exact_floorMul (x : ℕ) : exact.floorMul x = ⌊(x : ℝ) * Real.goldenRatio⌋₊ :=
  (floor_mul_goldenRatio x).symm

/-- `ceil(x * INV_PHI)` in real arithmetic. -/
theorem exact_ceilDiv (x : ℕ) : exact.ceilDiv x = ⌈(x : ℝ) / Real.goldenRatio⌉₊ := by
  by_cases hx : x = 0
  · subst hx
    simp [exact]
  · rw [ceil_div_goldenRatio hx]
    exact if_neg hx

end GoldenRatio

namespace WythoffScheduler

variable {round : ℕ} (s : WythoffScheduler)

theorem getSyncMode_eq_pull_iff {φ : GoldenRatio} :
    s.getSyncMode φ round = .pull ↔ φ.floorMul (φ.ceilDiv round) = round := by
  rw [getSyncMode, isInBeattyPhi]
  split_ifs with h
  · exact iff_of_true rfl (beq_iff_eq.mp h)
  · exact iff_of_false nofun fun heq => h (beq_iff_eq.mpr heq)

theorem getSyncMode_eq_push_iff {φ : GoldenRatio} :
    s.getSyncMode φ round = .push ↔ ¬ s.getSyncMode φ round = .pull := by
  cases s.getSyncMode φ round with
  | push => exact iff_of_true rfl nofun
  | pull => exact iff_of_false nofun (not_not.mpr rfl)

/-- The candidate that the code tests suffices. -/
theorem getSyncMode_eq_pull_iff_floor (hround : 1 ≤ round) :
    s.getSyncMode .exact round = .pull ↔
      ∃ k : ℕ, 1 ≤ k ∧ ⌊(k : ℝ) * Real.goldenRatio⌋₊ = round := by
  rw [getSyncMode_eq_pull_iff, GoldenRatio.exact_floorMul, GoldenRatio.exact_ceilDiv]
  exact floor_ceil_div_eq_iff (by omega)

/-- **Push and pull rounds.** They are the two complementary Beatty sequences. -/
theorem getSyncMode_iff_beatty (hround : 1 ≤ round) :
    (s.getSyncMode .exact round = .pull ↔
        ∃ k : ℕ, 1 ≤ k ∧ ⌊(k : ℝ) * Real.goldenRatio⌋₊ = round) ∧
      (s.getSyncMode .exact round = .push ↔
        ∃ k : ℕ, 1 ≤ k ∧ ⌊(k : ℝ) * Real.goldenRatio ^ 2⌋₊ = round) := by
  have hpull := s.getSyncMode_eq_pull_iff_floor hround
  refine ⟨hpull, ?_⟩
  rw [getSyncMode_eq_push_iff, hpull, floor_goldenRatio_sq_iff (by omega)]

/-- Round 1 of a cluster of two is a pull. -/
theorem getSyncMode_iff_beatty_one :
    ((new 2).getSyncMode .exact 1 = .pull ↔
        ∃ k : ℕ, 1 ≤ k ∧ ⌊(k : ℝ) * Real.goldenRatio⌋₊ = 1) ∧
      ((new 2).getSyncMode .exact 1 = .push ↔
        ∃ k : ℕ, 1 ≤ k ∧ ⌊(k : ℝ) * Real.goldenRatio ^ 2⌋₊ = 1) :=
  getSyncMode_iff_beatty (new 2) le_rfl

/-- The fractional part of the multiple decides the mode. -/
theorem getSyncMode_eq_pull_iff_fract (hround : 1 ≤ round) :
    s.getSyncMode .exact round = .pull ↔
      2 - Real.goldenRatio < Int.fract ((round : ℝ) * Real.goldenRatio) := by
  have hne : round ≠ 0 := by omega
  have hfract := exists_floor_eq_iff_fract (Int.natCast_ne_zero.mpr hne)
  rw [Int.cast_natCast] at hfract
  rw [getSyncMode_eq_pull_iff_floor s hround, exists_natFloor_eq_iff Real.goldenRatio_pos hne,
    ← hfract]
  constructor
  · rintro ⟨k, -, hk⟩
    exact ⟨k, hk⟩
  · rintro ⟨k, hk⟩
    exact ⟨k, pos_of_floor_mul_eq Real.goldenRatio_pos hne hk, hk⟩

end WythoffScheduler

end Convergence
