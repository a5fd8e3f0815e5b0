import Convergence.Gossip.Message
import Convergence.Gossip.WythoffScheduler
import Convergence.Library.Ranking

/-!
# The gossip engine

`GossipEngine` of `gossip_engine.cpp`: the peer table of a node, the choice of a peer for a round,
and the handling of a message. A function of the engine returns what it sends; a datagram goes to
the host and the port it carries. The threads of the engine take turns: each definition below is one
turn, under the locks that the code takes.

The state that the threads share is in `GossipEngine`: the replica, which clients change too, and
the peer table. The clock reads `now`, in milliseconds. A random choice is a number, reduced to the
size of what is chosen from.

## Main definitions

* `PeerInfo`, `GossipEngine`, `GossipEngine.new`, `Datagram`, `Receipt`.
* `selectRandomPeer`, `GossipEngine.selectRoundRobinPeer`, `GossipEngine.selectWythoffPeer`.
* `GossipEngine.doGossipRound`, `GossipEngine.heartbeat`, `GossipEngine.checkLiveness`.
* `touchPeers`, `GossipEngine.handleMessage`.

## Main results

* `GossipEngine.handleMessage_fst`: what handling a message leaves alone.
* `GossipEngine.snd_reply_cases`: what answers a message.
-/

namespace Convergence

open Ranking

/-- An entry of the peer table. -/
structure PeerInfo where
  nodeId : Str
  host : Str
  port : ℕ := 0
  isAlive : Bool := true
  lastHeard : ℕ
  deriving DecidableEq

/-- `enum class GossipStrategy`. -/
inductive GossipStrategy
  | random
  | roundRobin
  | wythoff
  deriving DecidableEq

/-- The state of a `GossipEngine`, together with the replica that it refers to. -/
structure GossipEngine where
  nodeId : Str
  crdtBook : CRDTOrderBook ℚ
  peers : List PeerInfo
  peerTimeoutMs : ℤ
  strategy : GossipStrategy
  scheduler : WythoffScheduler
  round : ℕ
  myNodeIndex : ℕ
  rrIndex : ℕ

/-- A message on its way to a host and a port. -/
structure Datagram where
  msg : Message
  host : Str
  port : ℕ

/-- A message as the receiving thread gets it: with the sender's host and port, at some time. -/
structure Receipt where
  msg : Message
  senderHost : Str
  senderPort : ℕ
  now : ℕ

/-- `all_ids`: the ids of the node and its peers, sorted and without repetitions. -/
def allIds (nodeId : Str) (peers : List PeerInfo) : List Str :=
  sortUnique (nodeId :: peers.map PeerInfo.nodeId)

namespace GossipEngine

/-- `GossipEngine::GossipEngine`. -/
def new (nodeId : Str) (crdtBook : CRDTOrderBook ℚ) (seedPeers : List PeerInfo)
    (peerTimeoutMs : ℤ) (strategy : GossipStrategy) : GossipEngine where
  nodeId := nodeId
  crdtBook := crdtBook
  peers := seedPeers
  peerTimeoutMs := peerTimeoutMs
  strategy := strategy
  scheduler := .new (seedPeers.length + 1)
  round := 0
  myNodeIndex := (allIds nodeId seedPeers).idxOf nodeId
  rrIndex := 0

/-- A message of the node with its current clock. -/
def message (e : GossipEngine) (type : MessageType) (operations : List (Operation ℚ)) :
    Message where
  type := type
  senderId := e.nodeId
  senderClock := e.crdtBook.clock
  operations := operations

end GossipEngine

/-! ### Choosing a peer -/

/-- `GossipEngine::select_random_peer`: a live peer, or any peer when all are marked dead. -/
def selectRandomPeer (peers : List PeerInfo) (choice : ℕ) : Option PeerInfo :=
  let alive := peers.filter PeerInfo.isAlive
  if alive = [] then peers[choice % peers.length]? else alive[choice % alive.length]?

/-- The loop of `select_round_robin_peer`: the index at which it stops. From an index in range it
comes back to `start` within `peers.length` turns. -/
def roundRobinLoop (peers : List PeerInfo) (start : ℕ) : ℕ → ℕ → ℕ
  | 0, rr => rr
  | turns + 1, rr =>
    let next := (rr + 1) % peers.length
    if (peers[next]?.map PeerInfo.isAlive).getD false then next
    else if next = start then next
    else roundRobinLoop peers start turns next

namespace GossipEngine

/-- `GossipEngine::select_round_robin_peer`. -/
def selectRoundRobinPeer (e : GossipEngine) : GossipEngine × Option PeerInfo :=
  if e.peers = [] then (e, none)
  else
    let rrIndex := roundRobinLoop e.peers e.rrIndex e.peers.length e.rrIndex
    ({ e with rrIndex := rrIndex }, e.peers[rrIndex]?)

/-- `GossipEngine::select_wythoff_peer`, with the mode that it sets. -/
def selectWythoffPeer (φ : GoldenRatio) (e : GossipEngine) :
    GossipEngine × Option PeerInfo × SyncMode :=
  if e.peers = [] then (e, none, .push)
  else
    let round := e.round + 1
    let pair := e.scheduler.getPair φ round
    let mode := e.scheduler.getSyncMode φ round
    let target :=
      -- Only the sender of the round acts.
      if pair.sender = e.myNodeIndex then
        (allIds e.nodeId e.peers)[pair.receiver]?.bind fun targetId =>
          e.peers.find? fun peer => peer.nodeId = targetId
      else none
    ({ e with round := round }, target, mode)

/-- The `switch` on the strategy in `do_gossip_round`. -/
def selectPeer (φ : GoldenRatio) (e : GossipEngine) (choice : ℕ) :
    GossipEngine × Option PeerInfo × SyncMode :=
  match e.strategy with
  | .random => (e, selectRandomPeer e.peers choice, .push)
  | .roundRobin => (e.selectRoundRobinPeer.1, e.selectRoundRobinPeer.2, .push)
  | .wythoff => e.selectWythoffPeer φ

/-! ### Turns of the gossip thread -/

/-- What `do_gossip_round` sends to the chosen peer: a pull without operations, or a push of the
last twenty. -/
def roundMessage (e : GossipEngine) (mode : SyncMode) : Message :=
  if e.strategy = .wythoff ∧ mode = .pull then e.message .gossipPull []
  else
    let ops := e.crdtBook.opLog
    e.message (if e.strategy = .wythoff then .gossipPush else .gossipPushPull)
      (ops.drop (ops.length - 20))

/-- `GossipEngine::do_gossip_round`. -/
def doGossipRound (φ : GoldenRatio) (e : GossipEngine) (choice : ℕ) :
    GossipEngine × List Datagram :=
  let selected := e.selectPeer φ choice
  (selected.1,
    (selected.2.1.map fun p => ⟨selected.1.roundMessage selected.2.2, p.host, p.port⟩).toList)

/-- The heartbeat of `gossip_loop`. -/
def heartbeat (e : GossipEngine) (choice : ℕ) : List Datagram :=
  ((selectRandomPeer e.peers choice).map fun p =>
    ⟨e.message .heartbeat [], p.host, p.port⟩).toList

/-- The liveness check of `gossip_loop`. -/
def checkLiveness (e : GossipEngine) (now : ℕ) : GossipEngine :=
  { e with
    peers := e.peers.map fun peer =>
      if e.peerTimeoutMs < now - peer.lastHeard ∧ peer.isAlive then
        { peer with isAlive := false }
      else peer }

end GossipEngine

/-! ### Turns of the receiving thread -/

/-- The types that `handle_message` may answer. -/
def MessageType.Asks (t : MessageType) : Prop :=
  t = .gossipPull ∨ t = .gossipPushPull ∨ t = .antiEntropyReq
  deriving Decidable

/-- The loop over the peer table in `handle_message`: the first entry with the sender's id or host
is alive from now on and takes the sender's id. The entry is returned when it was marked dead. -/
def touchPeers (senderId senderHost : Str) (now : ℕ) :
    List PeerInfo → List PeerInfo × Option PeerInfo
  | [] => ([], none)
  | peer :: peers =>
    if peer.nodeId = senderId ∨ peer.host = senderHost then
      let peer' := { peer with isAlive := true, lastHeard := now, nodeId := senderId }
      (peer' :: peers, if peer.isAlive then none else some peer')
    else
      let rest := touchPeers senderId senderHost now peers
      (peer :: rest.1, rest.2)

namespace GossipEngine

/-- The `ANTI_ENTROPY_REQ` to a peer that has come back. -/
def syncRequest (e : GossipEngine) (revived : Option PeerInfo) : List Datagram :=
  (revived.map fun peer => ⟨e.message .antiEntropyReq [], peer.host, peer.port⟩).toList

/-- The operations of a message, applied one after the other. -/
def applyOperations (e : GossipEngine) (ops : List (Operation ℚ)) : GossipEngine :=
  { e with crdtBook := e.crdtBook.replay ops }

/-- The `switch` of `handle_message`: the messages to the sender. -/
def reply (e : GossipEngine) (msg : Message) : GossipEngine × List Message :=
  if msg.type = .gossipPush then (e.applyOperations msg.operations, [])
  else if msg.type = .gossipPushPull then
    let e' := e.applyOperations msg.operations
    let ourOps := e'.crdtBook.getOperationsSince msg.senderClock
    (e', if ourOps = [] then [] else [e'.message .gossipPush (ourOps.take 20)])
  else if msg.type = .gossipPull then
    let ops := e.crdtBook.getOperationsSince msg.senderClock
    (e, if ops = [] then [] else [e.message .gossipPush ops])
  else if msg.type = .antiEntropyReq then
    (e, [e.message .antiEntropyRes (e.crdtBook.getOperationsSince msg.senderClock)])
  else if msg.type = .antiEntropyRes then (e.applyOperations msg.operations, [])
  else (e, [])

/-- `GossipEngine::handle_message`. -/
def handleMessage (e : GossipEngine) (msg : Message) (senderHost : Str) (senderPort now : ℕ) :
    GossipEngine × List Datagram :=
  let touched := touchPeers msg.senderId senderHost now e.peers
  let e := { e with peers := touched.1 }
  let answer := e.reply msg
  (answer.1, e.syncRequest touched.2 ++ answer.2.map fun m => ⟨m, senderHost, senderPort⟩)

/-! ### What a turn leaves alone -/

section Frame

variable {e : GossipEngine} {msg : Message} {h : Str} {port now : ℕ}

/-- Only entries that exist are touched, and their addresses stay. -/
theorem map_address_touchPeers (senderId : Str) (peers : List PeerInfo) :
    (touchPeers senderId h now peers).1.map (fun p => (p.host, p.port)) =
      peers.map fun p => (p.host, p.port) := by
  induction peers with
  | nil => rfl
  | cons p peers ih =>
    rw [touchPeers]
    split
    · rfl
    · rw [List.map_cons, List.map_cons, ih]

theorem length_touchPeers (senderId : Str) (peers : List PeerInfo) :
    (touchPeers senderId h now peers).1.length = peers.length := by
  rw [← List.length_map (f := fun p => (p.host, p.port)), map_address_touchPeers, List.length_map]

/-- The `switch` changes nothing but the replica. -/
theorem reply_fst (e : GossipEngine) (msg : Message) :
    (e.reply msg).1 = { e with crdtBook := (e.reply msg).1.crdtBook } := by
  rw [reply]
  split_ifs <;> rfl

/-- Handling a message changes the replica and the peer table. -/
theorem handleMessage_fst : (e.handleMessage msg h port now).1 =
    { e with
      crdtBook := (e.handleMessage msg h port now).1.crdtBook
      peers := (touchPeers msg.senderId h now e.peers).1 } :=
  reply_fst _ msg

@[simp] theorem nodeId_handleMessage : (e.handleMessage msg h port now).1.nodeId = e.nodeId := by
  rw [handleMessage_fst]

@[simp] theorem peers_handleMessage : (e.handleMessage msg h port now).1.peers =
    (touchPeers msg.senderId h now e.peers).1 := by
  rw [handleMessage_fst]

@[simp] theorem scheduler_handleMessage :
    (e.handleMessage msg h port now).1.scheduler = e.scheduler := by
  rw [handleMessage_fst]

@[simp] theorem myNodeIndex_handleMessage :
    (e.handleMessage msg h port now).1.myNodeIndex = e.myNodeIndex := by
  rw [handleMessage_fst]

@[simp] theorem strategy_handleMessage :
    (e.handleMessage msg h port now).1.strategy = e.strategy := by
  rw [handleMessage_fst]

@[simp] theorem rrIndex_handleMessage :
    (e.handleMessage msg h port now).1.rrIndex = e.rrIndex := by
  rw [handleMessage_fst]

/-- A peer that comes back is sent a request. -/
theorem exists_syncRequest (msg : Message) (port : ℕ) {p : PeerInfo}
    (hp : (touchPeers msg.senderId h now e.peers).2 = some p) :
    ∃ m, ⟨m, p.host, p.port⟩ ∈ (e.handleMessage msg h port now).2 := by
  refine ⟨{ e with peers := (touchPeers msg.senderId h now e.peers).1 }.message .antiEntropyReq [],
    List.mem_append_left _ ?_⟩
  rw [hp]
  exact List.mem_singleton_self _

/-- There is no answer, or one to a message that asks, and this one does not ask. -/
theorem snd_reply_cases (e : GossipEngine) (msg : Message) : (e.reply msg).2 = [] ∨
    msg.type.Asks ∧ ∃ type ops, ¬ MessageType.Asks type ∧
      (e.reply msg).2 = [(e.reply msg).1.message type ops] := by
  have hpush : ¬ MessageType.gossipPush.Asks := by rintro (h | h | h) <;> cases h
  have hres : ¬ MessageType.antiEntropyRes.Asks := by rintro (h | h | h) <;> cases h
  rw [reply]
  split_ifs with h₁ h₂ h₃ h₄
  · exact Or.inl rfl
  · simp only
    split_ifs
    · exact Or.inl rfl
    · exact Or.inr ⟨Or.inr (Or.inl h₂), _, _, hpush, rfl⟩
  · simp only
    split_ifs
    · exact Or.inl rfl
    · exact Or.inr ⟨Or.inl h₃, _, _, hpush, rfl⟩
  · exact Or.inr ⟨Or.inr (Or.inr h₄), _, _, hres, rfl⟩
  · exact Or.inl rfl
  · exact Or.inl rfl

/-- The answers are messages of the node. -/
theorem senderId_reply {m : Message} (hm : m ∈ (e.reply msg).2) : m.senderId = e.nodeId := by
  obtain h | ⟨-, _, _, -, h⟩ := e.snd_reply_cases msg
  · rw [h] at hm
    exact absurd hm List.not_mem_nil
  · rw [h, List.mem_singleton] at hm
    rw [hm, reply_fst]
    rfl

end Frame

end GossipEngine

end Convergence
