import Convergence.Gossip.SyncModes
import Convergence.Library.IrrationalRotation

/-!
# Which pairs are scheduled

The index of a round is a floor of a multiple of the golden ratio, reduced modulo the number of
ordered pairs, and every index is that of one pair. Pair and mode of a round come from the same
multiple: the pair from the residue of its floor, the mode from its fractional part. Since the
multiples are dense modulo any number, every pair is scheduled in either mode again and again, and
since no multiple is an integer, the schedule is not periodic from any round on.

## Main definitions

* `WythoffScheduler.decode`, `WythoffScheduler.pairIndex`: the pair of an index and its inverse.

## Main results

* `WythoffScheduler.scheduled_forever`: every pair, in either mode, after any round.
* `WythoffScheduler.never_periodic`.
-/

namespace Convergence

namespace WythoffScheduler

variable {s : WythoffScheduler}

/-- The decoding in `get_pair`. -/
def decode (s : WythoffScheduler) (pairIdx : ℕ) : GossipPair :=
  let sender := pairIdx / s.otherNodes
  let receiver := pairIdx % s.otherNodes
  ⟨sender, if sender ≤ receiver then (receiver + 1) % 2 ^ 32 else receiver⟩

theorem getPair_eq_decode (φ : GoldenRatio) (round : ℕ) :
    s.getPair φ round = s.decode (φ.floorMul round % s.numPairs % 2 ^ 32) := rfl

/-- The index of a pair. -/
def pairIndex (s : WythoffScheduler) (pair : GossipPair) : ℕ :=
  pair.sender * s.otherNodes +
    if pair.sender < pair.receiver then pair.receiver - 1 else pair.receiver

namespace Fits

theorem numPairs_pos (h : s.Fits) : 0 < s.numPairs := by
  have htwo := h.two_le
  rw [h.numPairs_eq]
  exact Nat.mul_pos (by omega) (by omega)

/-- There are at least two pairs. -/
theorem two_le_numPairs (h : s.Fits) : 2 ≤ s.numPairs := by
  have htwo := h.two_le
  rw [h.numPairs_eq]
  exact htwo.trans (Nat.le_mul_of_pos_right _ (by omega))

/-- Decoding is undone by taking the index. -/
theorem pairIndex_decode (h : s.Fits) (i : ℕ) :
    s.pairIndex (s.decode i) = i := by
  have htwo := h.two_le
  have hle := h.numNodes_le
  have hother := h.otherNodes_eq
  have hlt : i % s.otherNodes < s.otherNodes := Nat.mod_lt _ (by omega)
  have hwrap : (i % s.otherNodes + 1) % 2 ^ 32 = i % s.otherNodes + 1 :=
    Nat.mod_eq_of_lt (by omega)
  have hsender : (s.decode i).sender = i / s.otherNodes := rfl
  have hreceiver : (s.decode i).receiver =
      if i / s.otherNodes ≤ i % s.otherNodes then i % s.otherNodes + 1 else i % s.otherNodes := by
    simp only [decode, hwrap]
  have hskip : (if (s.decode i).sender < (s.decode i).receiver then (s.decode i).receiver - 1
      else (s.decode i).receiver) = i % s.otherNodes := by
    rw [hsender, hreceiver]
    split_ifs <;> omega
  rw [pairIndex, hskip, hsender, Nat.mul_comm]
  exact Nat.div_add_mod i s.otherNodes

/-- Every pair of distinct nodes is decoded from its index. -/
theorem decode_pairIndex (h : s.Fits) (pair : GossipPair) (hs : pair.sender < s.numNodes)
    (hr : pair.receiver < s.numNodes) (hne : pair.sender ≠ pair.receiver) :
    s.pairIndex pair < s.numPairs ∧ s.decode (s.pairIndex pair) = pair := by
  have htwo := h.two_le
  have hle := h.numNodes_le
  have hother := h.otherNodes_eq
  obtain ⟨sender, receiver⟩ := pair
  dsimp only at hs hr hne
  obtain ⟨rest, hrest⟩ : ∃ rest, rest = if sender < receiver then receiver - 1 else receiver :=
    ⟨_, rfl⟩
  have hlt : rest < s.otherNodes := by
    rw [hrest]
    split_ifs <;> omega
  have hindex : s.pairIndex ⟨sender, receiver⟩ = s.otherNodes * sender + rest := by
    rw [Nat.mul_comm, hrest]
    rfl
  have hdiv : (s.otherNodes * sender + rest) / s.otherNodes = sender := by
    rw [Nat.mul_add_div (by omega), Nat.div_eq_of_lt hlt, Nat.add_zero]
  have hmod : (s.otherNodes * sender + rest) % s.otherNodes = rest := by
    rw [Nat.mul_add_mod, Nat.mod_eq_of_lt hlt]
  rw [hindex]
  constructor
  · have hbound : s.otherNodes * sender + s.otherNodes ≤ s.otherNodes * s.numNodes := by
      rw [← Nat.mul_succ]
      exact Nat.mul_le_mul_left _ hs
    rw [h.numPairs_eq, ← hother, Nat.mul_comm s.numNodes]
    omega
  · have hwrap : (rest + 1) % 2 ^ 32 = rest + 1 := Nat.mod_eq_of_lt (by omega)
    have hreceiver : (if sender ≤ rest then rest + 1 else rest) = receiver := by
      rw [hrest]
      split_ifs <;> omega
    simp only [decode, hdiv, hmod, hwrap, hreceiver]

/-- The index of a round in real arithmetic. -/
theorem index_exact (h : s.Fits) (round : ℕ) :
    ((GoldenRatio.exact.floorMul round % s.numPairs % 2 ^ 32 : ℕ) : ℤ) =
      ⌊(round : ℝ) * Real.goldenRatio⌋ % s.numPairs := by
  have hnonneg : 0 ≤ (round : ℝ) * Real.goldenRatio :=
    mul_nonneg (Nat.cast_nonneg round) Real.goldenRatio_pos.le
  have hlt : GoldenRatio.exact.floorMul round % s.numPairs < 2 ^ 32 :=
    (Nat.mod_lt _ h.numPairs_pos).trans_le (Nat.mod_lt _ (Nat.two_pow_pos 32)).le
  rw [Nat.mod_eq_of_lt hlt, GoldenRatio.exact_floorMul, Int.natCast_mod,
    Int.natCast_floor_eq_floor hnonneg]

/-- Equal pairs have equal indices. -/
theorem floor_emod_eq_of_getPair_eq (h : s.Fits) {r r' : ℕ}
    (heq : s.getPair .exact r = s.getPair .exact r') :
    ⌊(r : ℝ) * Real.goldenRatio⌋ % s.numPairs = ⌊(r' : ℝ) * Real.goldenRatio⌋ % s.numPairs := by
  rw [getPair_eq_decode, getPair_eq_decode] at heq
  have hindex := congrArg s.pairIndex heq
  rw [h.pairIndex_decode, h.pairIndex_decode] at hindex
  rw [← h.index_exact, ← h.index_exact, hindex]

end Fits

/-- **Every pair is scheduled for ever, in either mode.** -/
theorem scheduled_forever {n : ℕ} (htwo : 2 ≤ n) (hfits : n * (n - 1) < 2 ^ 32) {i j : ℕ}
    (hi : i < n) (hj : j < n) (hij : i ≠ j) (mode : SyncMode) (R : ℕ) :
    ∃ r ≥ R, (new n).getPair .exact r = ⟨i, j⟩ ∧ (new n).getSyncMode .exact r = mode := by
  have h := fits_new htwo hfits
  have hn := numNodes_new htwo hfits
  obtain ⟨hlt, hdecode⟩ := h.decode_pairIndex ⟨i, j⟩ (hi.trans_eq hn.symm)
    (hj.trans_eq hn.symm) hij
  have hpair {r : ℕ}
      (hr : ⌊(r : ℝ) * Real.goldenRatio⌋ % (new n).numPairs = (new n).pairIndex ⟨i, j⟩) :
      (new n).getPair .exact r = ⟨i, j⟩ := by
    rw [← h.index_exact, Int.natCast_inj] at hr
    rw [getPair_eq_decode, hr, hdecode]
  -- The arc of the fractional part that belongs to the mode.
  have hone := Real.one_lt_goldenRatio
  have htwo' := Real.goldenRatio_lt_two
  cases mode with
  | pull =>
    obtain ⟨r, hr, hindex, hlow, -⟩ := Real.goldenRatio_irrational.exists_floor_emod h.numPairs_pos
      hlt (by linarith : 0 ≤ 2 - Real.goldenRatio) (by linarith) le_rfl (R + 1)
    refine ⟨r, by omega, hpair hindex, ?_⟩
    exact ((new n).getSyncMode_eq_pull_iff_fract (by omega)).mpr hlow
  | push =>
    obtain ⟨r, hr, hindex, -, hhigh⟩ := Real.goldenRatio_irrational.exists_floor_emod h.numPairs_pos
      hlt le_rfl (by linarith : 0 < 2 - Real.goldenRatio) (by linarith) (R + 1)
    refine ⟨r, by omega, hpair hindex, (new n).getSyncMode_eq_push_iff.mpr fun hpull => ?_⟩
    exact absurd (((new n).getSyncMode_eq_pull_iff_fract (by omega)).mp hpull) hhigh.not_gt

/-- In a cluster of five, node 3 pushes to node 1 after round 100. -/
theorem scheduled_forever_five :
    ∃ r ≥ 100, (new 5).getPair .exact r = ⟨3, 1⟩ ∧ (new 5).getSyncMode .exact r = .push :=
  scheduled_forever (by omega) (by omega) (by omega) (by omega) (by omega) .push 100

/-- **The schedule is not periodic from any round on.** -/
theorem never_periodic {n : ℕ} (htwo : 2 ≤ n) (hfits : n * (n - 1) < 2 ^ 32) {P : ℕ} (hP : 1 ≤ P)
    (R : ℕ) : ∃ r ≥ R, (new n).getPair .exact r ≠ (new n).getPair .exact (r + P) := by
  have h := fits_new htwo hfits
  by_contra! hper
  have hirr : Irrational ((P : ℝ) * Real.goldenRatio) :=
    Real.goldenRatio_irrational.natCast_mul (by omega)
  have hfract : 0 < Int.fract ((P : ℝ) * Real.goldenRatio) := Int.fract_pos.mpr (hirr.ne_int _)
  obtain ⟨⟨r, hr, hfloor⟩, r', hr', hfloor'⟩ :=
    Real.goldenRatio_irrational.exists_floor_add hfract R
  -- The period would be a multiple of the number of pairs by both amounts.
  have hdvd {r : ℕ} (hr : r ≥ R) {g : ℤ} (hg : ⌊(r : ℝ) * Real.goldenRatio + P * Real.goldenRatio⌋ =
      ⌊(r : ℝ) * Real.goldenRatio⌋ + g) : ((new n).numPairs : ℤ) ∣ g := by
    have heq := h.floor_emod_eq_of_getPair_eq (hper r hr)
    rw [Nat.cast_add, add_mul, hg, eq_comm, Int.emod_eq_emod_iff_emod_sub_eq_zero,
      add_sub_cancel_left] at heq
    exact Int.dvd_of_emod_eq_zero heq
  have hlow := hdvd hr hfloor
  have hhigh := hdvd hr' hfloor'
  have hone : ((new n).numPairs : ℤ) ∣ 1 := (Int.dvd_add_right hlow).mp hhigh
  have hpairs := h.two_le_numPairs
  have hle := Int.le_of_dvd Int.one_pos hone
  omega

/-- In a cluster of two, rounds do not repeat with period 2. -/
theorem never_periodic_two :
    ∃ r ≥ 10, (new 2).getPair .exact r ≠ (new 2).getPair .exact (r + 2) :=
  never_periodic le_rfl (by omega) (by omega) 10

end WythoffScheduler

end Convergence
