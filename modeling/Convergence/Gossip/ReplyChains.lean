import Convergence.Gossip.Network
import Mathlib.Algebra.BigOperators.Group.Finset.Piecewise
import Mathlib.Algebra.Order.BigOperators.Group.List
import Mathlib.Data.Fintype.Basic

/-!
# Reply chains

What is sent on receipt of a message dies out. A push, a heartbeat and the answer to an anti-entropy
request are not answered, and the answers to the other messages are pushes or answers of the last
kind; so a message costs one unit of work, or two when it asks for an answer. The one other thing
sent on receipt, the anti-entropy request to a peer that has come back, uses up a dead entry of a
peer table.

## Main definitions

* `Message.weight`, `Network.deadEntries`, `Network.weight`.
* `replySystem`: runs without gossip rounds, heartbeats and timeouts.

## Main results

* `GossipEngine.weight_handleMessage`: the work that one message leaves behind.
* `Network.deliveries_le`.
-/

namespace Convergence

open TransitionSystem

/-! ### One message -/

/-- The number of messages that handling a message makes it necessary to handle. -/
def Message.weight (m : Message) : ℕ := if m.type.Asks then 2 else 1

theorem Message.weight_le (m : Message) : m.weight ≤ 2 := by
  rw [weight]
  split_ifs <;> omega

/-- The number of entries that are marked dead. -/
def deadCount (peers : List PeerInfo) : ℕ := peers.countP fun p => !p.isAlive

/-- An entry that is found alive again is dead no more. -/
theorem deadCount_touchPeers (senderId senderHost : Str) (now : ℕ) (peers : List PeerInfo) :
    deadCount (touchPeers senderId senderHost now peers).1 +
      (touchPeers senderId senderHost now peers).2.toList.length = deadCount peers := by
  induction peers with
  | nil => rfl
  | cons p peers ih =>
    rw [touchPeers]
    split
    · cases hp : p.isAlive <;> simp [deadCount, hp]
    · simp only [deadCount, List.countP_cons] at ih ⊢
      omega

namespace GossipEngine

variable {e : GossipEngine} {msg : Message}

/-- A message is not answered, or it asks and the answer does not. -/
theorem weight_reply (e : GossipEngine) (msg : Message) :
    ((e.reply msg).2.map fun m => m.weight).sum + 1 ≤ msg.weight := by
  obtain hnone | ⟨hasks, type, ops, htype, hone⟩ := e.snd_reply_cases msg
  · rw [hnone, Message.weight]
    simp only [List.map_nil, List.sum_nil]
    split_ifs <;> omega
  · have htwo : msg.weight = 2 := if_pos hasks
    have hanswer : ((e.reply msg).1.message type ops).weight = 1 := if_neg htype
    rw [hone, List.map_singleton, List.sum_singleton, hanswer, htwo]

/-- The request to a peer that has come back is paid for by the entry that was dead. -/
theorem weight_syncRequest (e : GossipEngine) (revived : Option PeerInfo) :
    ((e.syncRequest revived).map fun d => d.msg.weight).sum ≤ 2 * revived.toList.length := by
  cases revived with
  | none => rfl
  | some p =>
    have hle := (e.message .antiEntropyReq []).weight_le
    simpa [syncRequest] using hle

/-- Handling a message leaves less work behind than there was before. -/
theorem weight_handleMessage (e : GossipEngine) (msg : Message) (host : Str) (port now : ℕ) :
    ((e.handleMessage msg host port now).2.map fun d => d.msg.weight).sum +
        2 * deadCount (e.handleMessage msg host port now).1.peers + 1 ≤
      msg.weight + 2 * deadCount e.peers := by
  have hdead := deadCount_touchPeers msg.senderId host now e.peers
  rw [peers_handleMessage]
  simp only [handleMessage, List.map_append, List.map_map, List.sum_append, Function.comp_def]
  have hrequest := weight_syncRequest
    { e with peers := (touchPeers msg.senderId host now e.peers).1 }
    (touchPeers msg.senderId host now e.peers).2
  have hreply := weight_reply { e with peers := (touchPeers msg.senderId host now e.peers).1 } msg
  omega

end GossipEngine

/-! ### A network -/

/-- The step hands a message to a node. -/
def Turn.isDelivery {N : Type*} : Turn N → Bool
  | .deliver .. => true
  | _ => false

/-- A step that no timer sets off. -/
def Turn.IsReaction {N : Type*} : Turn N → Prop
  | .deliver .. => True
  | .lose _ => True
  | .client .. => True
  | _ => False

/-- The runs of a network in which no node starts a gossip round or a heartbeat and no timeout
fires. -/
def replySystem {N : Type*} [DecidableEq N] (φ : GoldenRatio) (a : Addressing N) (c : Network N) :
    TransitionSystem (Network N) (Turn N) :=
  (networkSystem φ a c).restrict fun _ l => l.IsReaction

namespace Network

variable {N : Type*} [Fintype N] {c : Network N} {φ : GoldenRatio}

/-- The number of peer-table entries that are marked dead. -/
def deadEntries (c : Network N) : ℕ := ∑ n, deadCount (c.engines n).peers

/-- The work that is left. -/
def weight (c : Network N) : ℕ :=
  (c.inFlight.map fun p => p.msg.weight).sum + 2 * c.deadEntries

theorem weight_le (c : Network N) : c.weight ≤ 2 * (c.inFlight.length + c.deadEntries) := by
  have hle : (c.inFlight.map fun p => p.msg.weight).sum ≤ c.inFlight.length * 2 := by
    have hcard := List.sum_le_card_nsmul (c.inFlight.map fun p => p.msg.weight) 2 fun w hw => by
      obtain ⟨p, -, rfl⟩ := List.mem_map.mp hw
      exact p.msg.weight_le
    simpa using hcard
  rw [weight]
  omega

/-- A datagram makes at most one packet. -/
theorem weight_packets {N : Type*} (a : Addressing N) (n : N) (ds : List Datagram) :
    ((a.packets n ds).map fun p => p.msg.weight).sum ≤ (ds.map fun d => d.msg.weight).sum := by
  induction ds with
  | nil => rfl
  | cons d ds ih =>
    rw [Addressing.packets] at ih ⊢
    cases hroute : a.route d.host d.port with
    | none => simpa [hroute] using ih.trans (Nat.le_add_left _ _)
    | some dst => simpa [hroute] using ih

/-- What leaves the flight does not weigh any more. -/
theorem weight_drop {k : ℕ} {p : Packet N} (h : c.inFlight[k]? = some p) :
    (c.drop k).weight + p.msg.weight = c.weight := by
  obtain ⟨hk, rfl⟩ := List.getElem?_eq_some_iff.mp h
  have hperm := (List.getElem_cons_eraseIdx_perm hk).map fun p : Packet N => p.msg.weight
  have hsum := hperm.sum_eq
  rw [List.map_cons, List.sum_cons] at hsum
  simp only [weight, drop, deadEntries]
  omega

variable [DecidableEq N] {a : Addressing N}

/-- The entries of one node change. -/
theorem deadEntries_update (c : Network N) (n : N) (e : GossipEngine) (l : List (Packet N)) :
    deadEntries ⟨Function.update c.engines n e, l⟩ + deadCount (c.engines n).peers =
      c.deadEntries + deadCount e.peers := by
  have hcomp : (fun m => deadCount (Function.update c.engines n e m).peers) =
      Function.update (fun m => deadCount (c.engines m).peers) n (deadCount e.peers) := by
    ext m
    by_cases hm : m = n
    · subst hm
      simp
    · simp [hm]
  have hold := Finset.add_sum_erase Finset.univ (fun m => deadCount (c.engines m).peers)
    (Finset.mem_univ n)
  rw [deadEntries, hcomp, Finset.sum_update_of_mem (Finset.mem_univ n), ← Finset.erase_eq,
    deadEntries]
  omega

/-- The turn of a node that leaves less work behind than there was at this node. -/
theorem weight_afterTurn (c : Network N) (n : N) (r : GossipEngine × List Datagram) :
    (c.afterTurn a n r).weight + 2 * deadCount (c.engines n).peers ≤
      c.weight + 2 * deadCount r.1.peers + (r.2.map fun d => d.msg.weight).sum := by
  have hdead := deadEntries_update c n r.1 (c.inFlight ++ a.packets n r.2)
  have hpackets := weight_packets a n r.2
  simp only [weight, afterTurn, List.map_append, List.sum_append]
  omega

/-- A delivery lowers the weight. -/
theorem weight_deliver {k : ℕ} (hk : k < c.inFlight.length) (now : ℕ) :
    (c.step φ a (.deliver k now)).weight < c.weight := by
  have hp : c.inFlight[k]? = some c.inFlight[k] := List.getElem?_eq_getElem hk
  have hdrop := weight_drop hp
  simp only [step, hp]
  set p := c.inFlight[k]
  have hturn := weight_afterTurn (a := a) (c.drop k) p.dst
    ((c.engines p.dst).handleMessage p.msg p.senderHost p.senderPort now)
  have hhandle := (c.engines p.dst).weight_handleMessage p.msg p.senderHost p.senderPort now
  have hengines : (c.drop k).engines = c.engines := rfl
  rw [hengines] at hturn
  omega

/-- No reaction raises the weight. -/
theorem weight_step {l : Turn N} (hl : c.CanTake l) (hreact : l.IsReaction) :
    (c.step φ a l).weight ≤ c.weight := by
  cases l with
  | deliver k now => exact (weight_deliver hl now).le
  | lose k =>
    have hdrop := weight_drop (List.getElem?_eq_getElem hl)
    change (c.drop k).weight ≤ _
    omega
  | client n call =>
    have hturn := weight_afterTurn (a := a) c n
      ({ c.engines n with crdtBook := call.run (c.engines n).crdtBook }, [])
    change (c.afterTurn a n _).weight ≤ _
    simpa only [List.map_nil, List.sum_nil, Nat.add_zero, Nat.add_le_add_iff_right] using hturn
  | gossipRound => exact hreact.elim
  | heartbeat => exact hreact.elim
  | checkLiveness => exact hreact.elim

/-- **Reply chains die out.** From any state with `m` messages in flight and `d` dead entries, a run
in which nodes only react to messages and clients hands over at most `2 * (m + d)` messages. -/
theorem deliveries_le (φ : GoldenRatio) (a : Addressing N) (c : Network N) {ls : List (Turn N)}
    (h : (replySystem φ a c).Enables c ls) :
    ls.countP Turn.isDelivery ≤ 2 * (c.inFlight.length + c.deadEntries) := by
  have hle (c' : Network N) (l : Turn N) (hl : (replySystem φ a c).enabled c' l) :
      (c'.step φ a l).weight ≤ c'.weight := weight_step hl.1 hl.2
  have hlt (c' : Network N) (l : Turn N) (hl : (replySystem φ a c).enabled c' l)
      (hdelivery : l.isDelivery) : (c'.step φ a l).weight < c'.weight := by
    cases l with
    | deliver k now => exact weight_deliver hl.1 now
    | _ => cases hdelivery
  exact (h.countP_le hle hlt).trans (weight_le c)

/-- An anti-entropy request of a stranger, and its answer. -/
theorem deliveries_le_request :
    let c : Network Bool := ⟨fun i => .new [if i then 1 else 0] (.new [if i then 1 else 0]) [] 2000
      .random, [⟨none, true, ⟨.antiEntropyReq, [122], .new [122], []⟩, [98], 7000⟩]⟩
    [Turn.deliver 0 1, Turn.deliver 0 2].countP (Turn.isDelivery (N := Bool)) ≤
      2 * (c.inFlight.length + c.deadEntries) := by
  intro c
  let a : Addressing Bool := ⟨fun _ _ => some false, fun _ => [97], fun _ => 7000⟩
  exact deliveries_le .exact a c ⟨⟨Nat.zero_lt_one, trivial⟩, ⟨Nat.zero_lt_one, trivial⟩, trivial⟩

end Network

end Convergence
