import Convergence.Gossip.Engine
import Convergence.Library.CyclicSearch

/-!
# Which peer is chosen

The random and the round-robin choice prefer peers that are alive: a dead one is chosen only when
all are dead. Every live peer is a possible random choice, and every peer is one when all are dead.

## Main results

* `mem_of_selectRandomPeer`, `exists_selectRandomPeer`.
* `GossipEngine.mem_of_selectRoundRobinPeer`, `GossipEngine.mem_of_selectPeer`.
-/

namespace Convergence

variable {peers : List PeerInfo} {p : PeerInfo}

/-- The choice is alive unless all peers are dead. -/
structure PrefersAlive (peers : List PeerInfo) (p : PeerInfo) : Prop where
  mem : p ∈ peers
  isAlive : ∀ q ∈ peers, q.isAlive → p.isAlive

/-! ### Random choice -/

theorem mem_of_selectRandomPeer {choice : ℕ} (h : selectRandomPeer peers choice = some p) :
    PrefersAlive peers p := by
  rw [selectRandomPeer] at h
  split_ifs at h with hnone
  · refine ⟨List.mem_of_getElem? h, fun q hq halive => ?_⟩
    have hmem : q ∈ peers.filter PeerInfo.isAlive := List.mem_filter.mpr ⟨hq, halive⟩
    rw [hnone] at hmem
    exact absurd hmem List.not_mem_nil
  · obtain ⟨hmem, halive⟩ := List.mem_filter.mp (List.mem_of_getElem? h)
    exact ⟨hmem, fun _ _ _ => halive⟩

theorem exists_getElem?_mod {α : Type*} {l : List α} {x : α} (hx : x ∈ l) :
    ∃ k, l[k % l.length]? = some x := by
  obtain ⟨k, hk, rfl⟩ := List.mem_iff_getElem.mp hx
  exact ⟨k, by rw [Nat.mod_eq_of_lt hk, List.getElem?_eq_getElem hk]⟩

/-- Nothing but the preference decides. -/
theorem exists_selectRandomPeer (h : PrefersAlive peers p) :
    ∃ choice, selectRandomPeer peers choice = some p := by
  by_cases hnone : peers.filter PeerInfo.isAlive = []
  · obtain ⟨choice, hchoice⟩ := exists_getElem?_mod h.mem
    exact ⟨choice, by rw [selectRandomPeer, if_pos hnone, hchoice]⟩
  · obtain ⟨q, hq⟩ := List.exists_mem_of_ne_nil _ hnone
    have halive : p.isAlive := h.isAlive q (List.mem_filter.mp hq).1 (List.mem_filter.mp hq).2
    obtain ⟨choice, hchoice⟩ := exists_getElem?_mod (List.mem_filter.mpr ⟨h.mem, halive⟩)
    exact ⟨choice, by rw [selectRandomPeer, if_neg hnone, hchoice]⟩

/-! ### Round robin -/

/-- The test in the loop of `select_round_robin_peer`. -/
def AliveAt (peers : List PeerInfo) (k : ℕ) : Prop := (peers[k]?.map PeerInfo.isAlive).getD false

theorem aliveAt_iff {k : ℕ} : AliveAt peers k ↔ ∃ p, peers[k]? = some p ∧ p.isAlive := by
  rw [AliveAt]
  cases peers[k]? <;> simp

instance decidableAliveAt (peers : List PeerInfo) : DecidablePred (AliveAt peers) := fun _ =>
  inferInstanceAs (Decidable (_ = true))

theorem roundRobinLoop_lt {start turns rr : ℕ} (h : rr < peers.length) :
    roundRobinLoop peers start turns rr < peers.length := by
  induction turns generalizing rr with
  | zero => exact h
  | succ turns ih =>
    have hnext : (rr + 1) % peers.length < peers.length := Nat.mod_lt _ (Nat.zero_lt_of_lt h)
    rw [roundRobinLoop]
    split_ifs
    · exact hnext
    · exact hnext
    · exact ih hnext

/-- The loop stops at the next live peer: after `k` turns of a full circle, when that peer is `d`
turns from the start. -/
theorem roundRobinLoop_eq {start turns k d : ℕ} (hk : k + turns = peers.length)
    (hstart : start < peers.length) (hnext : NextAhead peers.length (AliveAt peers) start d)
    (hkd : k < d) :
    roundRobinLoop peers start turns ((start + k) % peers.length) = (start + d) % peers.length := by
  induction turns generalizing k with
  | zero =>
    have hd := hnext.le
    omega
  | succ turns ih =>
    have hfirst : AliveAt peers ((start + (k + 1)) % peers.length) → d = k + 1 := fun h =>
      le_antisymm (hnext.le_of_marked k.succ_pos h) hkd
    rw [roundRobinLoop]
    simp only [mod_add_turns]
    split_ifs with hfound hback
    · rw [hfirst hfound]
    · by_cases hdk : d = k + 1
      · rw [hdk]
      · -- Back at the start before the circle is full.
        have hd := hnext.le
        have hmod : start + (k + 1) ≡ start + 0 [MOD peers.length] := by
          rw [Nat.ModEq, hback, Nat.add_zero, Nat.mod_eq_of_lt hstart]
        have hzero := Nat.ModEq.add_left_cancel' start hmod
        rw [Nat.ModEq, Nat.zero_mod, Nat.mod_eq_of_lt (by omega)] at hzero
        omega
    · have hdk : d ≠ k + 1 := by
        rintro rfl
        exact hfound hnext.marked
      exact ih (by omega) (by omega)

namespace GossipEngine

variable {e : GossipEngine}

theorem rrIndex_selectRoundRobinPeer (h : e.rrIndex < e.peers.length) :
    e.selectRoundRobinPeer.1.rrIndex < e.peers.length := by
  rw [selectRoundRobinPeer]
  split_ifs
  · exact h
  · exact roundRobinLoop_lt h

/-- A call makes at most one circle. -/
theorem selectRoundRobinPeer_rrIndex (h : e.rrIndex < e.peers.length) :
    e.selectRoundRobinPeer.1.rrIndex =
      roundRobinLoop e.peers e.rrIndex e.peers.length ((e.rrIndex + 0) % e.peers.length) := by
  have hne : e.peers ≠ [] := List.ne_nil_of_length_pos (Nat.zero_lt_of_lt h)
  rw [selectRoundRobinPeer, if_neg hne, mod_no_turn h]

/-- The call returns the peer at the index it leaves. -/
theorem selectRoundRobinPeer_snd (h : e.rrIndex < e.peers.length) :
    e.selectRoundRobinPeer.2 = e.peers[e.selectRoundRobinPeer.1.rrIndex]? := by
  have hne : e.peers ≠ [] := List.ne_nil_of_length_pos (Nat.zero_lt_of_lt h)
  rw [selectRoundRobinPeer, if_neg hne]

theorem peers_selectRoundRobinPeer (e : GossipEngine) :
    e.selectRoundRobinPeer.1.peers = e.peers := by
  rw [selectRoundRobinPeer]
  split_ifs <;> rfl

/-- The call moves the index on to the next live peer. -/
theorem rrIndex_of_nextAhead {d : ℕ} (h : e.rrIndex < e.peers.length)
    (hnext : NextAhead e.peers.length (AliveAt e.peers) e.rrIndex d) :
    e.selectRoundRobinPeer.1.rrIndex = (e.rrIndex + d) % e.peers.length := by
  rw [selectRoundRobinPeer_rrIndex h]
  exact roundRobinLoop_eq (Nat.zero_add _) h hnext hnext.pos

theorem mem_of_selectRoundRobinPeer (h : e.rrIndex < e.peers.length)
    (hp : e.selectRoundRobinPeer.2 = some p) : PrefersAlive e.peers p := by
  rw [selectRoundRobinPeer_snd h] at hp
  refine ⟨List.mem_of_getElem? hp, fun q hq hq' => ?_⟩
  obtain ⟨k, hk, rfl⟩ := List.mem_iff_getElem.mp hq
  have halive : AliveAt e.peers k := aliveAt_iff.mpr ⟨_, List.getElem?_eq_getElem hk, hq'⟩
  obtain ⟨d, hnext⟩ := exists_nextAhead hk h halive
  rw [rrIndex_of_nextAhead h hnext] at hp
  obtain ⟨p', hp', halive'⟩ := aliveAt_iff.mp hnext.marked
  obtain rfl : p' = p := Option.some_inj.mp (hp'.symm.trans hp)
  exact halive'

/-! ### Either strategy -/

variable {φ : GoldenRatio} {choice : ℕ}

theorem selectPeer_cases (φ : GoldenRatio) (choice : ℕ) (hstrategy : e.strategy ≠ .wythoff) :
    e.selectPeer φ choice = (e, selectRandomPeer e.peers choice, .push) ∨
      e.selectPeer φ choice = (e.selectRoundRobinPeer.1, e.selectRoundRobinPeer.2, .push) := by
  rw [selectPeer]
  cases hs : e.strategy with
  | random => exact Or.inl rfl
  | roundRobin => exact Or.inr rfl
  | wythoff => exact absurd hs hstrategy

/-- Choosing a peer advances the counters. -/
theorem selectPeer_fst (φ : GoldenRatio) (e : GossipEngine) (choice : ℕ) :
    (e.selectPeer φ choice).1 =
      { e with
        round := (e.selectPeer φ choice).1.round
        rrIndex := (e.selectPeer φ choice).1.rrIndex } := by
  by_cases hstrategy : e.strategy = .wythoff
  · have heq : e.selectPeer φ choice = e.selectWythoffPeer φ := by rw [selectPeer, hstrategy]
    rw [heq, selectWythoffPeer]
    split_ifs <;> rfl
  · obtain h | h := selectPeer_cases φ choice hstrategy
    · rw [h]
    · rw [h, selectRoundRobinPeer]
      split_ifs <;> rfl

theorem rrIndex_selectPeer (hstrategy : e.strategy ≠ .wythoff) (h : e.rrIndex < e.peers.length) :
    (e.selectPeer φ choice).1.rrIndex < e.peers.length := by
  obtain heq | heq := selectPeer_cases φ choice hstrategy
  · rwa [heq]
  · rw [heq]
    exact rrIndex_selectRoundRobinPeer h

theorem mem_of_selectPeer (hstrategy : e.strategy ≠ .wythoff) (h : e.rrIndex < e.peers.length)
    (hp : (e.selectPeer φ choice).2.1 = some p) : PrefersAlive e.peers p := by
  obtain heq | heq := selectPeer_cases φ choice hstrategy
  · rw [heq] at hp
    exact mem_of_selectRandomPeer hp
  · rw [heq] at hp
    exact mem_of_selectRoundRobinPeer h hp

end GossipEngine

end Convergence
