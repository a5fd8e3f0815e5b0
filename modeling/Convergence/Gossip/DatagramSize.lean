import Convergence.Gossip.Node
import Convergence.Gossip.PeerChoice
import Convergence.Gossip.RoundTrip
import Mathlib.Algebra.Order.BigOperators.Group.List

/-!
# The size of datagrams

`send_message` hands every message to `sendto` in one piece, and a UDP datagram over IPv4 carries at
most 65507 bytes. The size of a message is a sum over its strings and clock entries, so each turn of
a node sends what fits exactly when the strings in the replica are short enough: in a gossip round
and in the answer to a push-pull at most twenty operations count, in the answers to a pull and to an
anti-entropy request all that the requesting clock does not cover.

In a cluster of at most 37 nodes twenty operations always fit. So all that can go wrong there is a
pull or a request whose clock leaves out too many of the operations in the log.

## Main definitions

* `VectorClock.size`, `Operation.size`, `GossipEngine.messageSize`.
* `NodeTurn.Fits`: the sizes that matter in a turn.
* `GossipEngine.Named`, `NodeTurn.Named`: only some nodes are named.
* `NodeTurn.AsksForFew`: a pull or a request leaves out few operations.
* `generateUuid`, `NodeTurn.UsesUuids`.

## Main results

* `Message.length_serialize`: the size of a message.
* `GossipEngine.allFit_along_iff`: when all datagrams of a run fit, in bytes.
* `GossipEngine.messageSize_le`: messages of few operations on short clocks.
* `GossipEngine.allFit_along_of_few`: all datagrams of a run fit when its requests ask for few
  operations.
-/

namespace Convergence

open TransitionSystem

/-- The largest payload of a UDP datagram over IPv4. -/
def maxDatagram : ℕ := 65507

/-! ### Sizes -/

/-- The bytes of a clock. -/
def VectorClock.size (c : VectorClock) : ℕ :=
  6 + c.nodeId.length + (c.clock.entries.map fun e => 10 + e.1.length).sum

/-- The bytes of an operation. -/
def Operation.size (op : Operation ℚ) : ℕ :=
  49 + op.order.orderId.length + op.order.nodeId.length + op.cancelOrderId.length +
    op.originNode.length + op.clock.size + op.opId.length

@[simp] theorem length_stringBytes (s : Str) : (stringBytes s).length = 2 + s.length := by
  rw [stringBytes, List.length_append, BigEndian.length_encode]

@[simp] theorem VectorClock.length_serialize (c : VectorClock) : c.serialize.length = c.size := by
  have hentry : (fun e => (entryBytes e).length) = fun e => 10 + e.1.length := by
    funext e
    rw [entryBytes, List.length_append, length_stringBytes, BigEndian.length_encode]
    omega
  rw [serialize_eq, size, List.length_append, List.length_append, length_stringBytes,
    BigEndian.length_encode, List.length_flatMap, hentry]
  omega

theorem length_operationBytes (rnd : ℚ → ℚ) (op : Operation ℚ) :
    (operationBytes rnd op).length = op.size := by
  simp only [operationBytes, orderBytes, Operation.size, List.length_append, List.length_singleton,
    length_stringBytes, BigEndian.length_encode, VectorClock.length_serialize]
  omega

/-- Rounding has no influence on the size. -/
theorem Message.length_serialize (rnd : ℚ → ℚ) (m : Message) : (m.serialize rnd).length =
    15 + m.senderId.length + m.senderClock.size + (m.operations.map Operation.size).sum := by
  have hops : (fun op => (operationBytes rnd op).length) = Operation.size :=
    funext (length_operationBytes rnd)
  simp only [serialize_eq, bodyBytes, List.length_append, List.length_singleton,
    length_stringBytes, BigEndian.length_encode, VectorClock.length_serialize, List.length_flatMap,
    hops]
  omega

/-- The message can be sent. -/
def Message.Fits (rnd : ℚ → ℚ) (m : Message) : Prop := (m.serialize rnd).length ≤ maxDatagram

/-! ### Turns -/

namespace GossipEngine

variable {e : GossipEngine} (rnd : ℚ → ℚ) {φ : GoldenRatio}

/-- The bytes of a message of the node with some operations. -/
def messageSize (e : GossipEngine) (ops : List (Operation ℚ)) : ℕ :=
  15 + e.nodeId.length + e.crdtBook.clock.size + (ops.map Operation.size).sum

theorem fits_message_iff (e : GossipEngine) (type : MessageType) (ops : List (Operation ℚ)) :
    (e.message type ops).Fits rnd ↔ e.messageSize ops ≤ maxDatagram := by
  rw [Message.Fits, Message.length_serialize]
  rfl

/-- The operations of a round. -/
def roundOperations (e : GossipEngine) (mode : SyncMode) : List (Operation ℚ) :=
  if e.strategy = .wythoff ∧ mode = .pull then []
  else e.crdtBook.opLog.drop (e.crdtBook.opLog.length - 20)

theorem fits_roundMessage_iff (e : GossipEngine) (mode : SyncMode) :
    (e.roundMessage mode).Fits rnd ↔ e.messageSize (e.roundOperations mode) ≤ maxDatagram := by
  rw [roundMessage, roundOperations]
  split_ifs <;> exact fits_message_iff rnd ..

/-- The answer to a message fits: to a pull or a request, with all operations that the clock of the
message does not cover; to a push-pull, with the first twenty of them, after its own operations have
been applied. -/
def ReplyFits (e : GossipEngine) (msg : Message) : Prop :=
  (msg.type = .gossipPull → e.crdtBook.getOperationsSince msg.senderClock = [] ∨
    e.messageSize (e.crdtBook.getOperationsSince msg.senderClock) ≤ maxDatagram) ∧
  (msg.type = .antiEntropyReq →
    e.messageSize (e.crdtBook.getOperationsSince msg.senderClock) ≤ maxDatagram) ∧
  (msg.type = .gossipPushPull →
    let e' := e.applyOperations msg.operations
    e'.crdtBook.getOperationsSince msg.senderClock = [] ∨
      e'.messageSize ((e'.crdtBook.getOperationsSince msg.senderClock).take 20) ≤ maxDatagram)

theorem fits_reply_iff (e : GossipEngine) (msg : Message) :
    (∀ m ∈ (e.reply msg).2, m.Fits rnd) ↔ e.ReplyFits msg := by
  have hanswer (ops sent : List (Operation ℚ)) (e : GossipEngine) :
      (∀ m ∈ (if ops = [] then [] else [e.message .gossipPush sent]), m.Fits rnd) ↔
        ops = [] ∨ e.messageSize sent ≤ maxDatagram := by
    rw [← fits_message_iff rnd e .gossipPush sent]
    by_cases hops : ops = [] <;> simp [hops]
  rw [reply, ReplyFits]
  split_ifs with hpush hpushPull hpull hreq hres
  · simp [hpush, MessageType.gossipPush, MessageType.gossipPull, MessageType.gossipPushPull,
      MessageType.antiEntropyReq]
  · rw [hanswer]
    simp [hpushPull, MessageType.gossipPull, MessageType.gossipPushPull,
      MessageType.antiEntropyReq]
  · rw [hanswer]
    simp [hpull, MessageType.gossipPull, MessageType.gossipPushPull, MessageType.antiEntropyReq]
  · rw [← fits_message_iff rnd e .antiEntropyRes]
    simp [hreq, MessageType.gossipPull, MessageType.gossipPushPull, MessageType.antiEntropyReq]
  · simp [hpushPull, hpull, hreq]
  · simp [hpushPull, hpull, hreq]

end GossipEngine

/-- What a turn sends fits: the message to the chosen peer, the request to a peer that has come
back, and the answer. -/
def NodeTurn.Fits (φ : GoldenRatio) (e : GossipEngine) : NodeTurn → Prop
  | client _ => True
  | gossipRound choice => (e.selectPeer φ choice).2.1.isSome →
    e.messageSize (e.roundOperations (e.selectPeer φ choice).2.2) ≤ maxDatagram
  | checkLiveness _ => True
  | receive r => ((touchPeers r.msg.senderId r.senderHost r.now e.peers).2.isSome →
    e.messageSize [] ≤ maxDatagram) ∧ e.ReplyFits r.msg

namespace GossipEngine

variable {e : GossipEngine} (rnd : ℚ → ℚ) {φ : GoldenRatio}

theorem fits_doGossipRound_iff (e : GossipEngine) (choice : ℕ) :
    (∀ d ∈ (e.doGossipRound φ choice).2, d.msg.Fits rnd) ↔
      (NodeTurn.gossipRound choice).Fits φ e := by
  have hround (mode : SyncMode) : ((e.selectPeer φ choice).1.roundMessage mode).Fits rnd ↔
      e.messageSize (e.roundOperations mode) ≤ maxDatagram := by
    rw [fits_roundMessage_iff, selectPeer_fst]
    rfl
  rw [doGossipRound, NodeTurn.Fits]
  cases (e.selectPeer φ choice).2.1 with
  | none => simp
  | some p => simpa using hround (e.selectPeer φ choice).2.2

theorem fits_syncRequest_iff (e : GossipEngine) (revived : Option PeerInfo) :
    (∀ d ∈ e.syncRequest revived, d.msg.Fits rnd) ↔
      (revived.isSome → e.messageSize [] ≤ maxDatagram) := by
  rw [← fits_message_iff rnd e .antiEntropyReq]
  cases revived <;> simp [syncRequest]

/-- All that a turn sends fits if and only if the sizes do. -/
theorem fits_run_iff (e : GossipEngine) (l : NodeTurn) :
    (∀ d ∈ (l.run φ e).2, d.msg.Fits rnd) ↔ l.Fits φ e := by
  cases l with
  | client => simp [NodeTurn.run, NodeTurn.Fits]
  | gossipRound choice => exact fits_doGossipRound_iff rnd e choice
  | checkLiveness => simp [NodeTurn.run, NodeTurn.Fits]
  | receive r =>
    have hreply := fits_reply_iff rnd
      { e with peers := (touchPeers r.msg.senderId r.senderHost r.now e.peers).1 } r.msg
    have hrequest := fits_syncRequest_iff rnd
      { e with peers := (touchPeers r.msg.senderId r.senderHost r.now e.peers).1 }
      (touchPeers r.msg.senderId r.senderHost r.now e.peers).2
    simp only [NodeTurn.run, handleMessage, List.mem_append, or_imp, forall_and,
      List.forall_mem_map]
    exact and_congr hrequest hreply

/-- Every datagram of the run so far can be sent. -/
def AllFit (rnd : ℚ → ℚ) (s : GossipEngine × List Datagram) : Prop := ∀ d ∈ s.2, d.msg.Fits rnd

theorem allFit_step_iff {s : GossipEngine × List Datagram} (h : AllFit rnd s) (l : NodeTurn) :
    AllFit rnd ((nodeSystem φ e).step s l) ↔ l.Fits φ s.1 := by
  rw [← fits_run_iff rnd s.1 l]
  simp only [AllFit, nodeSystem, List.mem_append, or_imp, forall_and]
  exact and_iff_right h

/-- In every state of a run, all that `do_gossip_round` and `handle_message` have sent can be sent
by UDP if and only if at every turn of the run the sizes fit. -/
theorem allFit_along_iff (φ : GoldenRatio) (e : GossipEngine) {ls : List NodeTurn}
    (h : (nodeSystem φ e).Enables (e, []) ls) :
    (nodeSystem φ e).Along (AllFit rnd) (e, []) ls ↔
      (nodeSystem φ e).Guarded (fun s l => l.Fits φ s.1) (e, []) ls := by
  have hinit : AllFit rnd (e, []) := fun d hd => absurd hd List.not_mem_nil
  exact along_iff_guarded (fun _ hs => hs) (fun s l hs _ hg => (allFit_step_iff rnd hs l).mpr hg)
    (fun s l hs _ hg hfit => hg ((allFit_step_iff rnd hs l).mp hfit)) hinit h

end GossipEngine

/-! ### Short strings -/

/-- At most `k` entries, and node ids of at most 64 bytes. -/
structure VectorClock.Small (k : ℕ) (c : VectorClock) : Prop where
  nodeId : c.nodeId.length ≤ 64
  entries : c.clock.entries.length ≤ k
  keys : ∀ e ∈ c.clock.entries, e.1.length ≤ 64

/-- Node ids of at most 64 bytes, and other ids of the length of a UUID. -/
structure Operation.Small (k : ℕ) (op : Operation ℚ) : Prop where
  orderId : op.order.orderId.length ≤ 36
  nodeId : op.order.nodeId.length ≤ 64
  cancelOrderId : op.cancelOrderId.length ≤ 36
  originNode : op.originNode.length ≤ 64
  clock : op.clock.Small k
  opId : op.opId.length ≤ 36

section Small

variable {k : ℕ}

theorem VectorClock.Small.size_le {c : VectorClock} (h : c.Small k) : c.size ≤ 70 + 74 * k := by
  have hentry (n : ℕ) (hn : n ∈ c.clock.entries.map fun e => 10 + e.1.length) : n ≤ 74 := by
    obtain ⟨e, he, rfl⟩ := List.mem_map.mp hn
    have hkey := h.keys e he
    omega
  have hsum := List.sum_le_card_nsmul _ 74 hentry
  have hid := h.nodeId
  have hmul := Nat.mul_le_mul_right 74 h.entries
  rw [List.length_map, Nat.nsmul_eq_mul] at hsum
  rw [size]
  omega

theorem Operation.Small.size_le {op : Operation ℚ} (h : op.Small k) : op.size ≤ 355 + 74 * k := by
  obtain ⟨horder, hnode, hcancel, horigin, hclock, hop⟩ := h
  have hsize := hclock.size_le
  rw [size]
  omega

namespace GossipEngine

variable {e : GossipEngine} {ops : List (Operation ℚ)}

/-- A message grows by a bounded amount with every operation. -/
theorem messageSize_le (hid : e.nodeId.length ≤ 64) (hclock : e.crdtBook.clock.Small k)
    (hops : ∀ op ∈ ops, op.Small k) :
    e.messageSize ops ≤ 149 + 74 * k + ops.length * (355 + 74 * k) := by
  have hsum := List.sum_le_card_nsmul (ops.map Operation.size) (355 + 74 * k) fun n hn => by
    obtain ⟨op, hop, rfl⟩ := List.mem_map.mp hn
    exact (hops op hop).size_le
  have hsize := hclock.size_le
  rw [List.length_map, Nat.nsmul_eq_mul] at hsum
  rw [messageSize]
  omega

/-- With clocks of at most 37 entries, twenty operations fit. -/
theorem fits_of_small (hk : k ≤ 37) (hid : e.nodeId.length ≤ 64)
    (hclock : e.crdtBook.clock.Small k) (hops : ∀ op ∈ ops, op.Small k)
    (hlength : ops.length ≤ 20) : e.messageSize ops ≤ maxDatagram := by
  have hsize := messageSize_le hid hclock hops
  have hmul : ops.length * (355 + 74 * k) ≤ 20 * (355 + 74 * 37) :=
    Nat.mul_le_mul hlength (by omega)
  rw [maxDatagram]
  omega

/-- So gossip rounds fit in clusters of at most 37 nodes. -/
theorem fits_gossipRound_of_small (φ : GoldenRatio) (hk : k ≤ 37) (hid : e.nodeId.length ≤ 64)
    (hclock : e.crdtBook.clock.Small k) (hlog : ∀ op ∈ e.crdtBook.opLog, op.Small k)
    (choice : ℕ) : (NodeTurn.gossipRound choice).Fits φ e := by
  intro _
  rw [roundOperations]
  split_ifs
  · exact fits_of_small hk hid hclock (fun op hop => absurd hop List.not_mem_nil) (Nat.zero_le _)
  · refine fits_of_small hk hid hclock (fun op hop => hlog op (List.mem_of_mem_drop hop)) ?_
    rw [List.length_drop]
    omega

end GossipEngine

end Small

/-! ### Clusters of few nodes -/

section Named

variable {ids : Finset Str}

/-- The clock has entries of the nodes `ids` only. -/
def VectorClock.Over (ids : Finset Str) (c : VectorClock) : Prop := ∀ key ∈ c.clock, key ∈ ids

/-- The operation names the nodes `ids` in its clock, and its ids are no longer than they may be. -/
structure Operation.Named (ids : Finset Str) (op : Operation ℚ) : Prop where
  orderId : op.order.orderId.length ≤ 36
  nodeId : op.order.nodeId.length ≤ 64
  cancelOrderId : op.cancelOrderId.length ≤ 36
  originNode : op.originNode.length ≤ 64
  clock : op.clock.Over ids
  opId : op.opId.length ≤ 36

/-- The clock of the replica and the operations in its log name the nodes `ids`. -/
structure CRDTOrderBook.Named (ids : Finset Str) (r : CRDTOrderBook ℚ) : Prop where
  wellFormed : r.WellFormed
  clock : r.clock.Over ids
  log : ∀ op ∈ r.opLog, op.Named ids

/-- The node has a short id, and its replica names the nodes `ids`. -/
structure GossipEngine.Named (ids : Finset Str) (e : GossipEngine) : Prop where
  nodeId : e.nodeId.length ≤ 64
  replica : e.crdtBook.Named ids

/-- The ids that a call brings in are no longer than generated ones, and an operation names the
nodes `ids`. -/
def Call.Named (ids : Finset Str) : Call ℚ → Prop
  | addOrder _ _ _ oid opId => oid.length ≤ 36 ∧ opId.length ≤ 36
  | cancelOrder _ opId _ => opId.length ≤ 36
  | marketOrder .. => True
  | applyRemote op => op.Named ids

/-- The same of a turn. -/
def NodeTurn.Named (ids : Finset Str) : NodeTurn → Prop
  | client call => call.Named ids
  | receive r => ∀ op ∈ r.msg.operations, op.Named ids
  | _ => True

/-- The operations in the log that a clock does not cover. -/
def CRDTOrderBook.countMissing (r : CRDTOrderBook ℚ) (c : VectorClock) : ℕ :=
  r.opLog.countP fun op => !op.clock.happensBefore c && !op.clock.sameClock c

/-- A message that is answered without a limit, in a cluster of `k` nodes, comes with a clock that
leaves out few operations of the log. -/
def NodeTurn.AsksForFew (k : ℕ) (e : GossipEngine) : NodeTurn → Prop
  | receive r => r.msg.type = .gossipPull ∨ r.msg.type = .antiEntropyReq →
    149 + 74 * k + e.crdtBook.countMissing r.msg.senderClock * (355 + 74 * k) ≤ maxDatagram
  | _ => True

theorem CRDTOrderBook.length_getOperationsSince (r : CRDTOrderBook ℚ) (c : VectorClock) :
    (r.getOperationsSince c).length = r.countMissing c :=
  List.countP_eq_length_filter.symm

namespace VectorClock.Over

variable {c other : VectorClock}

theorem small (h : c.Over ids) (hids : ∀ id ∈ ids, id.length ≤ 64) : c.Small ids.card where
  nodeId := hids _ (h _ c.owned)
  entries := by
    have hsub : c.clock.keys.toFinset ⊆ ids := fun key hkey => h key (List.mem_toFinset.mp hkey)
    have hcard := Finset.card_le_card hsub
    rwa [List.toFinset_card_of_nodup c.clock.keys_nodup, AList.keys, List.keys,
      List.length_map] at hcard
  keys e he := hids _ (h _ (List.mem_map_of_mem he))

theorem new {n : Str} (hn : n ∈ ids) : (VectorClock.new n).Over ids := fun key hkey => by
  rcases ClockMap.mem_set.mp hkey with rfl | hnone
  · exact hn
  · exact absurd hnone (AList.notMem_empty _)

theorem tick (h : c.Over ids) : c.tick.1.Over ids := fun key hkey => by
  rcases ClockMap.mem_set.mp hkey with rfl | hkey
  · exact h _ c.owned
  · exact h key hkey

theorem merge (h : c.Over ids) (ho : other.Over ids) : (c.merge other).Over ids := by
  have hloop (l : List ((_ : Str) × ℕ)) (hl : ∀ e ∈ l, e.1 ∈ ids) (m : ClockMap)
      (hm : ∀ key ∈ m, key ∈ ids) : ∀ key ∈ l.foldl ClockMap.raise m, key ∈ ids := by
    induction l generalizing m with
    | nil => exact hm
    | cons e l ih =>
      refine ih (fun x hx => hl x (List.mem_cons_of_mem _ hx)) _ fun key hkey => ?_
      rcases ClockMap.mem_set.mp hkey with rfl | hkey
      · exact hl e List.mem_cons_self
      · exact hm key hkey
  exact hloop _ (fun e he => ho _ (List.mem_map_of_mem he)) _ h

end VectorClock.Over

theorem Operation.Named.small {op : Operation ℚ} (h : op.Named ids)
    (hids : ∀ id ∈ ids, id.length ≤ 64) : op.Small ids.card :=
  ⟨h.orderId, h.nodeId, h.cancelOrderId, h.originNode, h.clock.small hids, h.opId⟩

namespace CRDTOrderBook.Named

variable {r : CRDTOrderBook ℚ}

theorem new {n : Str} (hn : n ∈ ids) : (CRDTOrderBook.new n : CRDTOrderBook ℚ).Named ids where
  wellFormed := .new n
  clock := .new hn
  log _ hop := absurd hop List.not_mem_nil

/-- The operations that calls log. -/
theorem mem_log (h : r.Named ids) {op x : Operation ℚ} (hop : op.Named ids)
    (hx : x ∈ r.opLog ++ [op]) : x.Named ids := by
  rcases List.mem_append.mp hx with hx | hx
  · exact h.log x hx
  · exact List.mem_singleton.mp hx ▸ hop

theorem nodeId_length_le (h : r.Named ids) (hids : ∀ id ∈ ids, id.length ≤ 64) :
    r.nodeId.length ≤ 64 :=
  hids _ (h.clock _ (r.clock_owner ▸ r.clock.owned))

/-- A call keeps the names: what it logs carries the clock after the call, and the id of a cancelled
order is that of an addition in the log. -/
theorem run (h : r.Named ids) (hids : ∀ id ∈ ids, id.length ≤ 64) {call : Call ℚ}
    (hcall : call.Named ids) : (call.run r).Named ids := by
  have hwf := h.wellFormed.run call
  have hnode := h.nodeId_length_le hids
  cases call with
  | addOrder side price q oid opId =>
    refine ⟨hwf, h.clock.tick, fun x hx => h.mem_log ?_ hx⟩
    exact ⟨hcall.1, hnode, Nat.zero_le _, hnode, h.clock.tick, hcall.2⟩
  | cancelOrder orderId opId u =>
    by_cases hid : orderId ∈ r.book.orders
    · obtain ⟨a, ha, -, haid⟩ := h.wellFormed.added orderId hid
      have hlength : orderId.length ≤ 36 := haid ▸ (h.log a ha).orderId
      rw [Call.run, localCancelOrder_of_mem hid] at hwf ⊢
      split_ifs at hwf ⊢
      · refine ⟨hwf, h.clock.tick, fun x hx => h.mem_log ?_ hx⟩
        exact ⟨Nat.zero_le _, Nat.zero_le _, hlength, hnode, h.clock.tick, hcall⟩
      · exact ⟨hwf, h.clock.tick, h.log⟩
    · rwa [Call.run, localCancelOrder_of_notMem hid]
  | marketOrder side q gen =>
    rw [Call.run, localMarketOrder_eq h.wellFormed.keyed] at hwf ⊢
    exact ⟨hwf, h.clock.tick, h.log⟩
  | applyRemote op =>
    rw [Call.run] at hwf ⊢
    by_cases hseen : op.opId ∈ r.seenOps
    · rwa [applyRemoteOperation_of_seen hseen]
    · refine ⟨hwf, ?_, fun x hx => h.mem_log hcall ?_⟩
      · rw [clock_applyRemoteOperation hseen]
        exact h.clock.merge hcall.clock
      · rwa [opLog_applyRemoteOperation hseen] at hx

theorem replay (h : r.Named ids) (hids : ∀ id ∈ ids, id.length ≤ 64) {ops : List (Operation ℚ)}
    (hops : ∀ op ∈ ops, op.Named ids) : (r.replay ops).Named ids := by
  induction ops generalizing r with
  | nil => exact h
  | cons op ops ih =>
    have hop : (Call.applyRemote op).Named ids := hops op List.mem_cons_self
    exact ih (h.run hids hop) fun x hx => hops x (List.mem_cons_of_mem _ hx)

end CRDTOrderBook.Named

namespace GossipEngine

variable {e : GossipEngine} {φ : GoldenRatio}

theorem Named.new {n : Str} (hn : n ∈ ids) (hids : ∀ id ∈ ids, id.length ≤ 64)
    (peers : List PeerInfo) (timeout : ℤ) (strategy : GossipStrategy) :
    (GossipEngine.new n (.new n) peers timeout strategy).Named ids :=
  ⟨hids n hn, .new hn⟩

theorem Named.reply (h : e.Named ids) (hids : ∀ id ∈ ids, id.length ≤ 64) {msg : Message}
    (hmsg : ∀ op ∈ msg.operations, op.Named ids) : (e.reply msg).1.Named ids := by
  have happly : (e.applyOperations msg.operations).Named ids :=
    ⟨h.nodeId, h.replica.replay hids hmsg⟩
  rw [GossipEngine.reply]
  split_ifs
  exacts [happly, happly, h, h, happly, h]

/-- A turn keeps the names. -/
theorem Named.run (h : e.Named ids) (hids : ∀ id ∈ ids, id.length ≤ 64) {l : NodeTurn}
    (hl : l.Named ids) : (l.run φ e).1.Named ids := by
  cases l with
  | client call => exact ⟨h.nodeId, h.replica.run hids hl⟩
  | gossipRound choice =>
    rw [NodeTurn.run, doGossipRound, selectPeer_fst]
    exact ⟨h.nodeId, h.replica⟩
  | checkLiveness now => exact ⟨h.nodeId, h.replica⟩
  | receive r =>
    have htouched : ({ e with
        peers := (touchPeers r.msg.senderId r.senderHost r.now e.peers).1 } : GossipEngine).Named
          ids := ⟨h.nodeId, h.replica⟩
    exact htouched.reply hids hl

/-- Few operations fit. -/
theorem Named.messageSize_le (h : e.Named ids) (hids : ∀ id ∈ ids, id.length ≤ 64)
    {ops : List (Operation ℚ)} (hops : ∀ op ∈ ops, op ∈ e.crdtBook.opLog) :
    e.messageSize ops ≤ 149 + 74 * ids.card + ops.length * (355 + 74 * ids.card) :=
  GossipEngine.messageSize_le h.nodeId (h.replica.clock.small hids)
    fun op hop => (h.replica.log op (hops op hop)).small hids

/-- What a turn sends fits, if it is no request for many operations. -/
theorem Named.fits (h : e.Named ids) (hids : ∀ id ∈ ids, id.length ≤ 64) (hcard : ids.card ≤ 37)
    {l : NodeTurn} (hl : l.Named ids) (hfew : l.AsksForFew ids.card e) : l.Fits φ e := by
  cases l with
  | client call => trivial
  | gossipRound choice =>
    exact fits_gossipRound_of_small φ hcard h.nodeId (h.replica.clock.small hids)
      (fun op hop => (h.replica.log op hop).small hids) choice
  | checkLiveness now => trivial
  | receive r =>
    have hanswer (hasks : r.msg.type = .gossipPull ∨ r.msg.type = .antiEntropyReq) :
        e.messageSize (e.crdtBook.getOperationsSince r.msg.senderClock) ≤ maxDatagram := by
      have hlog (op : Operation ℚ)
          (hop : op ∈ e.crdtBook.getOperationsSince r.msg.senderClock) : op ∈ e.crdtBook.opLog :=
        (List.mem_filter.mp hop).1
      have hsize := h.messageSize_le hids hlog
      rw [CRDTOrderBook.length_getOperationsSince] at hsize
      exact hsize.trans (hfew hasks)
    refine ⟨fun _ => ?_, fun hpull => Or.inr (hanswer (Or.inl hpull)),
      fun hreq => hanswer (Or.inr hreq), fun _ => Or.inr ?_⟩
    · exact fits_of_small hcard h.nodeId (h.replica.clock.small hids)
        (fun op hop => absurd hop List.not_mem_nil) (Nat.zero_le _)
    · have happlied : (e.applyOperations r.msg.operations).Named ids :=
        ⟨h.nodeId, h.replica.replay hids hl⟩
      refine fits_of_small hcard happlied.nodeId (happlied.replica.clock.small hids)
        (fun op hop => ?_) (List.length_take_le 20 _)
      exact (happlied.replica.log op (List.mem_filter.mp (List.mem_of_mem_take hop)).1).small hids

/-- **The size of datagrams.** In a cluster of at most 37 nodes, all that `do_gossip_round` and
`handle_message` send in a run can be sent by UDP, if no pull and no request of the run leaves out
too many operations of the log. -/
theorem allFit_along_of_few (rnd : ℚ → ℚ) (φ : GoldenRatio) (hids : ∀ id ∈ ids, id.length ≤ 64)
    (hcard : ids.card ≤ 37) (he : e.Named ids) {ls : List NodeTurn}
    (h : (nodeSystem φ e).Enables (e, []) ls)
    (hfew : (nodeSystem φ e).Guarded (fun s l => l.Named ids ∧ l.AsksForFew ids.card s.1)
      (e, []) ls) : (nodeSystem φ e).Along (AllFit rnd) (e, []) ls := by
  refine (allFit_along_iff rnd φ e h).mpr (hfew.imp_of_kept (I := fun s => s.1.Named ids) he ?_ ?_)
  · exact fun s l hs hg => hs.run hids hg.1
  · exact fun s l hs hg => hs.fits hids hcard hg.1 hg.2

/-- A node adds an order, and a peer asks for what it does not have. -/
theorem allFit_along_of_few_request :
    let e : GossipEngine := .new [97] (.new [97]) [⟨[98], [98], 7000, true, 0⟩] 2000 .random
    let request : Receipt := ⟨⟨.antiEntropyReq, [98], .new [98], []⟩, [98], 7000, 1⟩
    (nodeSystem .exact e).Along (AllFit fun v => v) (e, [])
      [.client (.addOrder Side.buy 1 5 [120] [121]), .receive request, .gossipRound 0] := by
  intro e request
  have hids : ∀ id ∈ ({[97], [98]} : Finset Str), id.length ≤ 64 := by decide
  refine allFit_along_of_few (fun v => v) .exact hids (by decide)
    (.new (by decide) hids _ _ _) ⟨trivial, trivial, trivial, trivial⟩
    ⟨⟨⟨by decide, by decide⟩, trivial⟩, ⟨fun op hop => absurd hop List.not_mem_nil, fun _ => ?_⟩,
      ⟨trivial, trivial⟩, trivial⟩
  decide

end GossipEngine

end Named

/-! ### Generated ids -/

/-- A digit of `std::hex`. -/
def hexDigit (v : ℕ) : UInt8 := if v < 10 then .ofNat (48 + v) else .ofNat (87 + v)

/-- `std::hex << std::setfill('0') << std::setw(width)`, for a number of at most `width` digits. -/
def hex : ℕ → ℕ → Str
  | 0, _ => []
  | width + 1, v => hex width (v / 16) ++ [hexDigit (v % 16)]

/-- `generate_uuid`, from six draws of 32 bits. -/
def generateUuid (a b c d e1 e2 : ℕ) : Str :=
  hex 8 a ++ [45] ++ hex 4 (b % 2 ^ 16) ++ [45] ++ hex 4 (c &&& 0x0FFF ||| 0x4000) ++ [45] ++
    hex 4 (d &&& 0x3FFF ||| 0x8000) ++ [45] ++ hex 4 (e1 % 2 ^ 16) ++ hex 8 e2

theorem length_hex (width v : ℕ) : (hex width v).length = width := by
  induction width generalizing v with
  | zero => rfl
  | succ width ih => rw [hex, List.length_append, ih, List.length_singleton]

/-- The string is one that `generate_uuid` can return. -/
def IsUuid (s : Str) : Prop :=
  ∃ a b c d e1 e2, a < 2 ^ 32 ∧ b < 2 ^ 32 ∧ c < 2 ^ 32 ∧ d < 2 ^ 32 ∧ e1 < 2 ^ 32 ∧ e2 < 2 ^ 32 ∧
    generateUuid a b c d e1 e2 = s

theorem IsUuid.length_eq {s : Str} (h : IsUuid s) : s.length = 36 := by
  obtain ⟨a, b, c, d, e1, e2, -, -, -, -, -, -, rfl⟩ := h
  simp only [generateUuid, List.length_append, length_hex, List.length_singleton]

/-- The ids of the operation are generated, but for the node ids, which have at most 64 bytes. -/
structure Operation.UsesUuids (op : Operation ℚ) : Prop where
  opId : IsUuid op.opId
  orderId : op.IsAdd → IsUuid op.order.orderId
  cancelOrderId : op.IsCancel → IsUuid op.cancelOrderId
  originNode : op.originNode.length ≤ 64

/-- The ids that the turn brings in are generated, but for node ids of at most 64 bytes. -/
def NodeTurn.UsesUuids : NodeTurn → Prop
  | client (.addOrder _ _ _ oid opId) => IsUuid oid ∧ IsUuid opId
  | client (.cancelOrder _ opId _) => IsUuid opId
  | client (.marketOrder _ _ gen) => ∀ k, IsUuid (gen k).1
  | receive r => r.msg.senderId.length ≤ 64 ∧ ∀ op ∈ r.msg.operations, op.UsesUuids
  | _ => True

/-! ### A long log -/

/-- Every operation takes at least 55 bytes. -/
theorem GossipEngine.le_messageSize (e : GossipEngine) (ops : List (Operation ℚ)) :
    ops.length * 55 ≤ e.messageSize ops := by
  have hsum := List.card_nsmul_le_sum (ops.map Operation.size) 55 fun n hn => by
    obtain ⟨op, -, rfl⟩ := List.mem_map.mp hn
    rw [Operation.size, VectorClock.size]
    omega
  rw [List.length_map, Nat.nsmul_eq_mul] at hsum
  rw [messageSize]
  omega

/-- A peer that knows nothing is answered with the whole log. -/
theorem CRDTOrderBook.getOperationsSince_eq_opLog {r : CRDTOrderBook ℚ} {c : VectorClock}
    (h : ∀ op ∈ r.opLog, ¬ op.clock.get ≤ c.get) : r.getOperationsSince c = r.opLog :=
  List.filter_eq_self.mpr fun op hop =>
    (List.mem_filter.mp (mem_getOperationsSince hop (h op hop))).2

/-- No pull and no request that leaves out more than 1191 operations can be answered. -/
theorem NodeTurn.not_fits_of_many {φ : GoldenRatio} {e : GossipEngine} {r : Receipt}
    (hasks : r.msg.type = .gossipPull ∨ r.msg.type = .antiEntropyReq)
    (hmany : 1191 < e.crdtBook.countMissing r.msg.senderClock) :
    ¬ (NodeTurn.receive r).Fits φ e := by
  have hsize := e.le_messageSize (e.crdtBook.getOperationsSince r.msg.senderClock)
  rw [CRDTOrderBook.length_getOperationsSince] at hsize
  have hlarge :
      ¬ e.messageSize (e.crdtBook.getOperationsSince r.msg.senderClock) ≤ maxDatagram := by
    rw [maxDatagram]
    omega
  rintro ⟨-, hpull, hreq, -⟩
  rcases hasks with htype | htype
  · rcases hpull htype with hnil | hle
    · rw [← CRDTOrderBook.length_getOperationsSince, hnil] at hmany
      exact absurd hmany (Nat.not_lt_zero _)
    · exact hlarge hle
  · exact hlarge (hreq htype)

/-- The node `a` with the peer `b`. -/
def nodeA : GossipEngine := .new [97] (.new [97]) [⟨[98], [98], 7000, true, 0⟩] 2000 .random

/-- The runs of the node under generated ids. -/
def uuidSystem : TransitionSystem (GossipEngine × List Datagram) NodeTurn :=
  (nodeSystem .exact nodeA).restrict fun _ l => l.UsesUuids

/-- The `n`-th pair of generated ids. -/
def sampleUuids (n : ℕ) : Str × Str :=
  (generateUuid (n % 2 ^ 32) 0 0 0 0 0, generateUuid (n % 2 ^ 32) 0 0 0 0 1)

theorem isUuid_sampleUuids (n : ℕ) : IsUuid (sampleUuids n).1 ∧ IsUuid (sampleUuids n).2 := by
  have hn : n % 2 ^ 32 < 2 ^ 32 := Nat.mod_lt _ (Nat.two_pow_pos 32)
  have hpos : 0 < 2 ^ 32 := Nat.two_pow_pos 32
  have hone : 1 < 2 ^ 32 := Nat.one_lt_two_pow (by omega)
  exact ⟨⟨_, 0, 0, 0, 0, 0, hn, hpos, hpos, hpos, hpos, hpos, rfl⟩,
    ⟨_, 0, 0, 0, 0, 1, hn, hpos, hpos, hpos, hpos, hone, rfl⟩⟩

/-- The node can have logged any number of its own operations and sent nothing. -/
theorem exists_reachable_log (n : ℕ) : ∃ e, uuidSystem.Reachable (e, []) ∧
    e.crdtBook.nodeId = [97] ∧ e.crdtBook.opLog.length = n ∧
      ∀ op ∈ e.crdtBook.opLog, 0 < op.clock.get [97] := by
  induction n with
  | zero => exact ⟨nodeA, .init, rfl, rfl, fun op hop => absurd hop List.not_mem_nil⟩
  | succ n ih =>
    obtain ⟨e, he, hnode, hlength, hpos⟩ := ih
    refine ⟨_, he.step (.client (.addOrder Side.buy 1 5 (sampleUuids n).1 (sampleUuids n).2))
      ⟨trivial, isUuid_sampleUuids n⟩, hnode, ?_, fun op hop => ?_⟩
    · change (e.crdtBook.opLog ++ [_]).length = n + 1
      rw [List.length_append, hlength, List.length_singleton]
    · obtain hop | hop := List.mem_append.mp hop
      · exact hpos op hop
      · rw [List.mem_singleton.mp hop]
        change 0 < e.crdtBook.clock.tick.1.get [97]
        rw [VectorClock.get_tick, e.crdtBook.clock_owner, hnode, VectorTime.tick,
          Function.update_self]
        exact Nat.succ_pos _

/-- After 1200 additions, a request with the clock of a new node has an answer of more than 65507
bytes. -/
theorem not_allFit_of_reachable :
    ∃ s, uuidSystem.Reachable s ∧ ¬ GossipEngine.AllFit (fun v => v) s := by
  obtain ⟨e, he, -, hlength, hpos⟩ := exists_reachable_log 1200
  let r : Receipt := ⟨⟨.antiEntropyReq, [98], .new [98], []⟩, [98], 7000, 1⟩
  refine ⟨_, he.step (.receive r) ⟨trivial, by simp [r], by simp [r]⟩, fun hfit => ?_⟩
  have hinit : GossipEngine.AllFit (fun v => v) (e, []) := fun d hd => absurd hd List.not_mem_nil
  have hturn : (NodeTurn.receive r).Fits .exact e :=
    (GossipEngine.allFit_step_iff (e := nodeA) _ hinit (.receive r)).mp hfit
  have hall : e.crdtBook.getOperationsSince (.new [98]) = e.crdtBook.opLog := by
    refine CRDTOrderBook.getOperationsSince_eq_opLog fun op hop hclock => ?_
    have hzero := hclock [97]
    rw [VectorClock.get_new] at hzero
    exact absurd (hpos op hop) hzero.not_gt
  refine NodeTurn.not_fits_of_many (Or.inr rfl) ?_ hturn
  rw [← CRDTOrderBook.length_getOperationsSince, hall, hlength]
  decide

end Convergence
