import Mathlib.Algebra.Order.Group.Nat
import Mathlib.Data.Nat.Sqrt

/-!
# The Wythoff schedule

`WythoffScheduler` of `wythoff_scheduler.cpp`: every round has one sender and one receiver, decoded
from an index into the ordered pairs of distinct nodes. Unsigned 32-bit arithmetic is reduced modulo
`2 ^ 32`. The steps in `double` arithmetic are a parameter, `GoldenRatio`: what the code computes on
them is exact, whatever values they give.

## Main definitions

* `GoldenRatio`: the floating-point steps, `GoldenRatio.exact` and `GoldenRatio.convergent`.
* `WythoffScheduler`, `WythoffScheduler.getPair`, `WythoffScheduler.getSyncMode`.

## Main results

* `WythoffScheduler.sender_lt`, `WythoffScheduler.receiver_lt`,
  `WythoffScheduler.receiver_ne_sender`.
-/

namespace Convergence

/-- The steps of the scheduler that are computed with `double`s. -/
structure GoldenRatio where
  /-- `static_cast<uint64_t>(std::floor(x * PHI))`, for a `uint64_t` `x`. -/
  floorMul : ℕ → ℕ
  /-- `static_cast<uint64_t>(std::ceil(static_cast<double>(x) * INV_PHI))`. -/
  ceilDiv : ℕ → ℕ

/-- The steps without rounding: `x * PHI` is half of `x` and the root of `5 * x ^ 2`. -/
def GoldenRatio.exact : GoldenRatio where
  floorMul x := (x + Nat.sqrt (5 * x ^ 2)) / 2
  ceilDiv x := if x = 0 then 0 else (Nat.sqrt (5 * x ^ 2) - x) / 2 + 1

/-- A sender and a receiver, by index. -/
structure GossipPair where
  sender : ℕ
  receiver : ℕ
  deriving DecidableEq

/-- `enum class SyncMode`. -/
inductive SyncMode
  | push
  | pull
  deriving DecidableEq

/-- The scheduler of a cluster of `numNodes` nodes. -/
structure WythoffScheduler where
  numNodes : ℕ
  deriving DecidableEq

namespace WythoffScheduler

/-- `WythoffScheduler::WythoffScheduler`, on a size cast to `uint32_t`. -/
def new (size : ℕ) : WythoffScheduler := ⟨size % 2 ^ 32⟩

/-- `num_nodes_ - 1`. -/
def otherNodes (s : WythoffScheduler) : ℕ := (s.numNodes + (2 ^ 32 - 1)) % 2 ^ 32

/-- `num_pairs`: the number of ordered pairs of distinct nodes. -/
def numPairs (s : WythoffScheduler) : ℕ := s.numNodes * s.otherNodes % 2 ^ 32

/-- `WythoffScheduler::get_pair`. -/
def getPair (φ : GoldenRatio) (s : WythoffScheduler) (round : ℕ) : GossipPair :=
  let pairIdx := φ.floorMul round % s.numPairs % 2 ^ 32
  let sender := pairIdx / s.otherNodes
  let receiver := pairIdx % s.otherNodes
  -- Skip the diagonal.
  ⟨sender, if sender ≤ receiver then (receiver + 1) % 2 ^ 32 else receiver⟩

/-- `WythoffScheduler::is_in_beatty_phi`. -/
def isInBeattyPhi (φ : GoldenRatio) (n : ℕ) : Bool := φ.floorMul (φ.ceilDiv n) == n

/-- `WythoffScheduler::get_sync_mode`. -/
def getSyncMode (φ : GoldenRatio) (_ : WythoffScheduler) (round : ℕ) : SyncMode :=
  if isInBeattyPhi φ round then .pull else .push

/-! ### Clusters whose pairs fit in 32 bits -/

section Fits

variable {s : WythoffScheduler}

/-- The arithmetic on the number of nodes does not wrap around. -/
structure Fits (s : WythoffScheduler) : Prop where
  two_le : 2 ≤ s.numNodes
  lt : s.numNodes * (s.numNodes - 1) < 2 ^ 32

variable (φ : GoldenRatio) (round : ℕ)

namespace Fits

theorem numNodes_le (h : s.Fits) : s.numNodes ≤ 2 ^ 32 := by
  have hle : s.numNodes ≤ s.numNodes * (s.numNodes - 1) :=
    Nat.le_mul_of_pos_right _ (Nat.sub_pos_of_lt h.two_le)
  exact hle.trans h.lt.le

theorem otherNodes_eq (h : s.Fits) : s.otherNodes = s.numNodes - 1 := by
  have htwo := h.two_le
  have hle := h.numNodes_le
  rw [otherNodes]
  omega

theorem numPairs_eq (h : s.Fits) : s.numPairs = s.numNodes * (s.numNodes - 1) := by
  rw [numPairs, h.otherNodes_eq, Nat.mod_eq_of_lt h.lt]

end Fits

theorem numNodes_new {n : ℕ} (htwo : 2 ≤ n) (hlt : n * (n - 1) < 2 ^ 32) :
    (new n).numNodes = n := by
  have hle : n ≤ n * (n - 1) := Nat.le_mul_of_pos_right _ (Nat.sub_pos_of_lt htwo)
  exact Nat.mod_eq_of_lt (hle.trans_lt hlt)

theorem fits_new {n : ℕ} (htwo : 2 ≤ n) (hlt : n * (n - 1) < 2 ^ 32) : (new n).Fits := by
  constructor
  · rwa [numNodes_new htwo hlt]
  · rwa [numNodes_new htwo hlt]

theorem pairIdx_lt (h : s.Fits) :
    φ.floorMul round % s.numPairs % 2 ^ 32 < s.numNodes * (s.numNodes - 1) := by
  have htwo := h.two_le
  have hpos : 0 < s.numNodes * (s.numNodes - 1) := Nat.mul_pos (by omega) (by omega)
  rw [h.numPairs_eq]
  exact (Nat.mod_le _ _).trans_lt (Nat.mod_lt _ hpos)

theorem sender_lt (h : s.Fits) : (s.getPair φ round).sender < s.numNodes := by
  rw [getPair, h.otherNodes_eq]
  exact Nat.div_lt_of_lt_mul (Nat.mul_comm .. ▸ pairIdx_lt φ round h)

theorem receiver_eq (h : s.Fits) : (s.getPair φ round).receiver =
    if (s.getPair φ round).sender ≤ φ.floorMul round % s.numPairs % 2 ^ 32 % (s.numNodes - 1) then
      φ.floorMul round % s.numPairs % 2 ^ 32 % (s.numNodes - 1) + 1
    else φ.floorMul round % s.numPairs % 2 ^ 32 % (s.numNodes - 1) := by
  have htwo := h.two_le
  have hle := h.numNodes_le
  have hlt : φ.floorMul round % s.numPairs % 2 ^ 32 % (s.numNodes - 1) < s.numNodes - 1 :=
    Nat.mod_lt _ (by omega)
  simp only [getPair, h.otherNodes_eq]
  rw [Nat.mod_eq_of_lt (by omega : _ + 1 < 2 ^ 32)]

theorem receiver_lt (h : s.Fits) : (s.getPair φ round).receiver < s.numNodes := by
  have htwo := h.two_le
  have hlt : φ.floorMul round % s.numPairs % 2 ^ 32 % (s.numNodes - 1) < s.numNodes - 1 :=
    Nat.mod_lt _ (by omega)
  rw [receiver_eq φ round h]
  split_ifs <;> omega

theorem receiver_ne_sender (h : s.Fits) :
    (s.getPair φ round).receiver ≠ (s.getPair φ round).sender := by
  rw [receiver_eq φ round h]
  split_ifs <;> omega

end Fits

end WythoffScheduler

end Convergence
