import Convergence.Gossip.PairCoverage
import Convergence.Library.Table

/-!
# The coverage matrix

The decoding of `get_pair` sends the indices one to one onto the ordered pairs of distinct nodes,
and none of its unsigned operations wraps around. So `coverage_matrix` counts every round in an
entry off the diagonal of its table, whatever the floating-point multiples are. The loop is followed
with a bound on its turns: its index is a `uint64_t`, and a number of rounds that is the largest
one never ends it.

## Main definitions

* `WythoffScheduler.coverageLoop`, `WythoffScheduler.coverageMatrix`.
* `WythoffScheduler.DecodesPairs`, `WythoffScheduler.CountsRounds`.

## Main results

* `WythoffScheduler.coverageLoop_counts`: every turn counts one round.
* `WythoffScheduler.pairs_counted_once`.
* `WythoffScheduler.Fits.coverageMatrix_largest`: when the loop does not end.
-/

namespace Convergence

namespace WythoffScheduler

variable {s : WythoffScheduler}

/-- The turns of the loop of `coverage_matrix` from round `r`, at most `fuel` of them: the matrix
and whether the loop has ended, or `none` where it would index outside the matrix. -/
def coverageLoop (φ : GoldenRatio) (s : WythoffScheduler) (numRounds : ℕ) :
    ℕ → ℕ → List (List ℕ) → Option (List (List ℕ) × Bool)
  | 0, r, matrix => some (matrix, decide (numRounds < r))
  | fuel + 1, r, matrix =>
    if r ≤ numRounds then do
      let pair := s.getPair φ r
      let matrix ← Table.update? (fun count => (count + 1) % 2 ^ 32) pair.sender pair.receiver
        matrix
      coverageLoop φ s numRounds fuel ((r + 1) % 2 ^ 64) matrix
    else some (matrix, true)

/-- `WythoffScheduler::coverage_matrix`. -/
def coverageMatrix (φ : GoldenRatio) (s : WythoffScheduler) (numRounds fuel : ℕ) :
    Option (List (List ℕ) × Bool) :=
  coverageLoop φ s numRounds fuel 1 (List.replicate s.numNodes (List.replicate s.numNodes 0))

/-! ### The decoding -/

/-- The ordered pairs of distinct nodes. -/
def distinctPairs (n : ℕ) : Set GossipPair :=
  {pair | pair.sender < n ∧ pair.receiver < n ∧ pair.sender ≠ pair.receiver}

/-- The decoding is exact, and a bijection between the indices and the pairs of distinct nodes. -/
structure DecodesPairs (s : WythoffScheduler) (n : ℕ) : Prop where
  otherNodes_eq : s.otherNodes = n - 1
  otherNodes_pos : 0 < s.otherNodes
  numPairs_eq : s.numPairs = n * (n - 1)
  numPairs_pos : 0 < s.numPairs
  /-- The cast of the index loses nothing. -/
  getPair_eq : ∀ φ round, s.getPair φ round = s.decode (φ.floorMul round % s.numPairs)
  /-- Neither does the increment of the receiver. -/
  decode_eq : ∀ i, s.decode i =
    ⟨i / (n - 1), if i / (n - 1) ≤ i % (n - 1) then i % (n - 1) + 1 else i % (n - 1)⟩
  bijOn : Set.BijOn s.decode (Set.Iio (n * (n - 1))) (distinctPairs n)

namespace Fits

theorem cast_index (h : s.Fits) (w : ℕ) : w % s.numPairs % 2 ^ 32 = w % s.numPairs :=
  Nat.mod_eq_of_lt ((Nat.mod_lt w h.numPairs_pos).trans (Nat.mod_lt _ (Nat.two_pow_pos 32)))

/-- Every pair that `get_pair` returns is one of distinct nodes. -/
theorem getPair_mem (h : s.Fits) (φ : GoldenRatio) (round : ℕ) :
    s.getPair φ round ∈ distinctPairs s.numNodes :=
  ⟨sender_lt φ round h, receiver_lt φ round h, (receiver_ne_sender φ round h).symm⟩

theorem decode_mem (h : s.Fits) {i : ℕ} (hi : i < s.numPairs) :
    s.decode i ∈ distinctPairs s.numNodes := by
  have hpair := h.getPair_mem ⟨fun _ => i, fun _ => 0⟩ 0
  rwa [getPair_eq_decode, h.cast_index, Nat.mod_eq_of_lt hi] at hpair

theorem bijOn_decode (h : s.Fits) :
    Set.BijOn s.decode (Set.Iio s.numPairs) (distinctPairs s.numNodes) := by
  refine ⟨fun i hi => h.decode_mem hi, fun i _ i' _ heq => ?_, ?_⟩
  · rw [← h.pairIndex_decode i, heq, h.pairIndex_decode]
  · rintro pair ⟨hs, hr, hne⟩
    obtain ⟨hlt, hdecode⟩ := h.decode_pairIndex pair hs hr hne
    exact ⟨s.pairIndex pair, hlt, hdecode⟩

theorem decodesPairs (h : s.Fits) : s.DecodesPairs s.numNodes where
  otherNodes_eq := h.otherNodes_eq
  otherNodes_pos := by
    have htwo := h.two_le
    rw [h.otherNodes_eq]
    omega
  numPairs_eq := h.numPairs_eq
  numPairs_pos := h.numPairs_pos
  getPair_eq φ round := by rw [getPair_eq_decode, h.cast_index]
  decode_eq i := by
    have htwo := h.two_le
    have hle := h.numNodes_le
    have hlt : i % (s.numNodes - 1) < s.numNodes - 1 := Nat.mod_lt _ (by omega)
    simp only [decode, h.otherNodes_eq]
    rw [Nat.mod_eq_of_lt (by omega : i % (s.numNodes - 1) + 1 < 2 ^ 32)]
  bijOn := h.numPairs_eq ▸ h.bijOn_decode

end Fits

/-! ### The counts -/

variable (φ : GoldenRatio)

/-- How many of the rounds are those of a sender and a receiver. -/
def roundsOf (s : WythoffScheduler) (rounds : List ℕ) (i j : ℕ) : ℕ :=
  rounds.countP fun r => (s.getPair φ r).sender = i ∧ (s.getPair φ r).receiver = j

/-- The matrix once some rounds have been counted. -/
def counts (s : WythoffScheduler) (rounds : List ℕ) : List (List ℕ) :=
  Table.ofFn s.numNodes s.numNodes fun i j => s.roundsOf φ rounds i j % 2 ^ 32

theorem counts_nil : s.counts φ [] = List.replicate s.numNodes (List.replicate s.numNodes 0) :=
  Table.ofFn_const s.numNodes s.numNodes 0

variable {φ}

theorem roundsOf_self (h : s.Fits) (rounds : List ℕ) (i : ℕ) : s.roundsOf φ rounds i i = 0 := by
  refine List.countP_eq_zero.mpr fun r _ => ?_
  have hne := receiver_ne_sender φ r h
  simp only [decide_eq_true_eq]
  omega

theorem roundsOf_concat (rounds : List ℕ) (r i j : ℕ) :
    s.roundsOf φ (rounds ++ [r]) i j = s.roundsOf φ rounds i j +
      if i = (s.getPair φ r).sender ∧ j = (s.getPair φ r).receiver then 1 else 0 := by
  rw [roundsOf, List.countP_append, List.countP_singleton]
  simp only [decide_eq_true_eq, @eq_comm _ i, @eq_comm _ j, roundsOf]

/-- Counting one more round is a checked update. -/
theorem update?_counts (h : s.Fits) (rounds : List ℕ) (r : ℕ) :
    Table.update? (fun count => (count + 1) % 2 ^ 32) (s.getPair φ r).sender
      (s.getPair φ r).receiver (s.counts φ rounds) = some (s.counts φ (rounds ++ [r])) := by
  rw [counts, Table.update?_ofFn _ _ (sender_lt φ r h) (receiver_lt φ r h), counts]
  congr 2
  funext i j
  rw [roundsOf_concat]
  split_ifs with hpair
  · rw [Nat.mod_add_mod]
  · rw [Nat.add_zero]

/-- Every turn of the loop counts one round. -/
theorem coverageLoop_counts (h : s.Fits) (numRounds fuel r : ℕ) (rounds : List ℕ) :
    s.coverageLoop φ numRounds (fuel + 1) r (s.counts φ rounds) =
      if r ≤ numRounds then
        s.coverageLoop φ numRounds fuel ((r + 1) % 2 ^ 64) (s.counts φ (rounds ++ [r]))
      else some (s.counts φ rounds, true) := by
  simp only [coverageLoop, update?_counts h, Option.bind_eq_bind, Option.bind_some]

/-- However far the loop gets, it has counted some rounds. -/
theorem coverageLoop_safe (h : s.Fits) (numRounds fuel r : ℕ) (rounds : List ℕ) :
    ∃ rounds' ended, s.coverageLoop φ numRounds fuel r (s.counts φ rounds) =
      some (s.counts φ rounds', ended) := by
  induction fuel generalizing r rounds with
  | zero => exact ⟨rounds, _, rfl⟩
  | succ fuel ih =>
    rw [coverageLoop_counts h]
    split_ifs
    · exact ih _ _
    · exact ⟨rounds, true, rfl⟩

/-- As long as the index does not wrap around, the rounds are counted one after the other. -/
theorem coverageLoop_eq (h : s.Fits) {numRounds : ℕ} (hlt : numRounds + 1 < 2 ^ 64) (fuel : ℕ)
    {k : ℕ} (hk : k ≤ numRounds) :
    s.coverageLoop φ numRounds fuel (k + 1) (s.counts φ (List.range' 1 k)) =
      some (s.counts φ (List.range' 1 (min (k + fuel) numRounds)),
        decide (numRounds ≤ k + fuel)) := by
  induction fuel generalizing k with
  | zero =>
    simp only [coverageLoop, Nat.add_zero, Nat.min_eq_left hk, Nat.lt_succ_iff]
  | succ fuel ih =>
    rw [coverageLoop_counts h]
    split_ifs with hr
    · have hnext : List.range' 1 k ++ [k + 1] = List.range' 1 (k + 1) := by
        rw [List.range'_1_concat, Nat.add_comm 1 k]
      rw [Nat.mod_eq_of_lt (by omega), hnext, ih hr, Nat.add_right_comm, Nat.add_assoc k]
    · obtain rfl : k = numRounds := by omega
      simp

/-- For the largest number of rounds the index never gets past it. -/
theorem coverageLoop_largest (h : s.Fits) (fuel : ℕ) {r : ℕ} (hr : r < 2 ^ 64) (rounds : List ℕ) :
    ∃ rounds', s.coverageLoop φ (2 ^ 64 - 1) fuel r (s.counts φ rounds) =
      some (s.counts φ rounds', false) := by
  have hle : r ≤ 2 ^ 64 - 1 := Nat.le_sub_one_of_lt hr
  induction fuel generalizing r rounds with
  | zero => exact ⟨rounds, by rw [coverageLoop, decide_eq_false hle.not_gt]⟩
  | succ fuel ih =>
    have hnext : (r + 1) % 2 ^ 64 < 2 ^ 64 := Nat.mod_lt _ (Nat.two_pow_pos 64)
    rw [coverageLoop_counts h, if_pos hle]
    exact ih hnext _ (Nat.le_sub_one_of_lt hnext)

/-- The entries of the matrix add up to the number of rounds. -/
theorem sum_roundsOf (h : s.Fits) (rounds : List ℕ) :
    ((Table.ofFn s.numNodes s.numNodes (s.roundsOf φ rounds)).map List.sum).sum =
      rounds.length :=
  Table.sum_ofFn_countP fun r _ => ⟨sender_lt φ r h, receiver_lt φ r h⟩

/-- What `coverage_matrix` computes for a number of rounds. -/
structure CountsRounds (φ : GoldenRatio) (s : WythoffScheduler) (n numRounds : ℕ) : Prop where
  /-- After any number of turns there is a table of `n` rows and columns with a zero diagonal. -/
  safe : ∀ fuel, ∃ entry ended,
    s.coverageMatrix φ numRounds fuel = some (Table.ofFn n n entry, ended) ∧ ∀ i, entry i i = 0
  /-- The loop ends, but for the largest number of rounds. -/
  ends : numRounds + 1 < 2 ^ 64 → ∀ fuel ≥ numRounds, ∃ matrix,
    s.coverageMatrix φ numRounds fuel = some (matrix, true)
  /-- Every entry counts the rounds of its pair. -/
  entry_eq : numRounds < 2 ^ 32 → ∀ fuel ≥ numRounds, s.coverageMatrix φ numRounds fuel =
    some (Table.ofFn n n (s.roundsOf φ (List.range' 1 numRounds)), true)
  /-- Every round is counted in one entry. -/
  sum_eq : ((Table.ofFn n n (s.roundsOf φ (List.range' 1 numRounds))).map List.sum).sum = numRounds

namespace Fits

theorem coverageMatrix_eq (h : s.Fits) {numRounds fuel : ℕ} (hlt : numRounds + 1 < 2 ^ 64)
    (hfuel : numRounds ≤ fuel) :
    s.coverageMatrix φ numRounds fuel = some (s.counts φ (List.range' 1 numRounds), true) := by
  have hloop := coverageLoop_eq (φ := φ) h hlt fuel (Nat.zero_le numRounds)
  simpa [coverageMatrix, ← counts_nil φ, hfuel] using hloop

/-- `coverage_matrix` does not return for the largest number of rounds. -/
theorem coverageMatrix_largest (h : s.Fits) (fuel : ℕ) :
    ∃ matrix, s.coverageMatrix φ (2 ^ 64 - 1) fuel = some (matrix, false) := by
  obtain ⟨rounds, hloop⟩ := coverageLoop_largest (φ := φ) h fuel (r := 1) (by norm_num) []
  rw [counts_nil] at hloop
  exact ⟨_, hloop⟩

theorem countsRounds (h : s.Fits) (numRounds : ℕ) : s.CountsRounds φ s.numNodes numRounds where
  safe fuel := by
    obtain ⟨rounds, ended, hloop⟩ := coverageLoop_safe (φ := φ) h numRounds fuel 1 []
    rw [counts_nil] at hloop
    refine ⟨_, ended, hloop, fun i => ?_⟩
    rw [roundsOf_self h, Nat.zero_mod]
  ends hlt fuel hfuel := ⟨_, h.coverageMatrix_eq hlt hfuel⟩
  entry_eq hlt fuel hfuel := by
    rw [h.coverageMatrix_eq (by omega) hfuel, counts]
    congr 3
    funext i j
    have hle : s.roundsOf φ (List.range' 1 numRounds) i j ≤ numRounds :=
      List.countP_le_length.trans_eq List.length_range'
    exact Nat.mod_eq_of_lt (hle.trans_lt hlt)
  sum_eq := by rw [sum_roundsOf h, List.length_range']

end Fits

/-- **Every index is one pair of distinct nodes, and every round is counted once.** -/
theorem pairs_counted_once {n : ℕ} (htwo : 2 ≤ n) (hfits : n * (n - 1) < 2 ^ 32) :
    (new n).DecodesPairs n ∧ ∀ φ numRounds, (new n).CountsRounds φ n numRounds := by
  have h := fits_new htwo hfits
  have hdecodes := h.decodesPairs
  have hcounts (φ : GoldenRatio) (numRounds : ℕ) := h.countsRounds (φ := φ) numRounds
  rw [numNodes_new htwo hfits] at hdecodes
  simp only [numNodes_new htwo hfits] at hcounts
  exact ⟨hdecodes, hcounts⟩

/-- In a cluster of five. -/
theorem pairs_counted_once_five :
    (new 5).DecodesPairs 5 ∧ ∀ φ numRounds, (new 5).CountsRounds φ 5 numRounds :=
  pairs_counted_once (by omega) (by omega)

end WythoffScheduler

end Convergence
