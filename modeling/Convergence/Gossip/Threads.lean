import Convergence.Gossip.Network

/-!
# The threads of the engines

Two threads run a `GossipEngine`, beside those that serve clients. A function of the replica or of
the peer table takes its lock for one call, so between two calls of a round, or of a message, the
replica may be changed by the other threads. Here a step is one critical section of one thread of
one node, and a round or a message is a sequence of steps.

A datagram that has been sent stays available: it may arrive at any time, in any order, repeatedly
or never.

## Main definitions

* `GossipThread`, `ReceiveThread`, `EngineThreads`: a node and where its threads stand.
* `ThreadAction`, `EngineThreads.step`, `EngineThreads.CanTake`: the critical sections.
* `ThreadedNetwork`, `ThreadTurn`, `threadSystem`.
* `EngineThreads.calls`: the call of the replica that a step makes.

## Main results

* `EngineThreads.crdtBook_step`: a step changes the replica by the call that it makes.
-/

namespace Convergence

/-- Where the gossip thread stands. The parts of `gossip_loop` are taken in any order. -/
inductive GossipThread
  | idle
  /-- `do_gossip_round` has chosen a peer. -/
  | chosen (host : Str) (port : ℕ) (mode : SyncMode)
  /-- `do_gossip_round` has read the clock. -/
  | clocked (host : Str) (port : ℕ) (mode : SyncMode) (clock : VectorClock)
  /-- A peer for a heartbeat has been chosen. -/
  | beating (host : Str) (port : ℕ)

/-- Where the receiving thread stands. -/
inductive ReceiveThread
  | waiting
  /-- `handle_message` is behind the peer table, and has the operations `rest` still to apply. -/
  | handling (msg : Message) (host : Str) (port : ℕ) (rest : List (Operation ℚ))
  /-- The operations of the response have been looked up. -/
  | answering (type : MessageType) (ops : List (Operation ℚ)) (host : Str) (port : ℕ)

/-- A node with the threads of its engine. -/
structure EngineThreads where
  engine : GossipEngine
  gossip : GossipThread
  receiver : ReceiveThread

/-- The critical sections. -/
inductive ThreadAction
  | choosePeer (choice : ℕ)
  | readClock
  | sendRound
  | chooseHeartbeat (choice : ℕ)
  | sendHeartbeat
  | checkLiveness (now : ℕ)
  | receive (r : Receipt)
  | applyNext
  | lookUp
  | sendAnswer
  | client (call : Call ℚ)

/-- The operations that the `switch` of `handle_message` applies. -/
def Message.toApply (msg : Message) : List (Operation ℚ) :=
  if msg.type = .gossipPush ∨ msg.type = .gossipPushPull ∨ msg.type = .antiEntropyRes then
    msg.operations
  else []

/-- What the `switch` of `handle_message` responds with, once the operations are applied. -/
def GossipEngine.response (e : GossipEngine) (msg : Message) :
    Option (MessageType × List (Operation ℚ)) :=
  let ops := e.crdtBook.getOperationsSince msg.senderClock
  if msg.type = .gossipPushPull then
    if ops = [] then none else some (.gossipPush, ops.take 20)
  else if msg.type = .gossipPull then
    if ops = [] then none else some (.gossipPush, ops)
  else if msg.type = .antiEntropyReq then some (.antiEntropyRes, ops)
  else none

namespace EngineThreads

/-- A critical section, and what it sends. -/
def step (φ : GoldenRatio) (s : EngineThreads) : ThreadAction → EngineThreads × List Datagram
  | .choosePeer choice =>
    let selected := s.engine.selectPeer φ choice
    ({ s with
        engine := selected.1
        gossip := (selected.2.1.map fun p => .chosen p.host p.port selected.2.2).getD .idle }, [])
  | .readClock =>
    match s.gossip with
    | .chosen host port mode =>
      ({ s with gossip := .clocked host port mode s.engine.crdtBook.clock }, [])
    | _ => (s, [])
  | .sendRound =>
    match s.gossip with
    | .clocked host port mode clock =>
      ({ s with gossip := .idle },
        [⟨{ s.engine.roundMessage mode with senderClock := clock }, host, port⟩])
    | _ => (s, [])
  | .chooseHeartbeat choice =>
    ({ s with
        gossip := ((selectRandomPeer s.engine.peers choice).map fun p =>
          .beating p.host p.port).getD .idle }, [])
  | .sendHeartbeat =>
    match s.gossip with
    | .beating host port =>
      ({ s with gossip := .idle }, [⟨s.engine.message .heartbeat [], host, port⟩])
    | _ => (s, [])
  | .checkLiveness now => ({ s with engine := s.engine.checkLiveness now }, [])
  | .receive r =>
    let touched := touchPeers r.msg.senderId r.senderHost r.now s.engine.peers
    let e := { s.engine with peers := touched.1 }
    ({ s with
        engine := e
        receiver := .handling r.msg r.senderHost r.senderPort r.msg.toApply },
      e.syncRequest touched.2)
  | .applyNext =>
    match s.receiver with
    | .handling msg host port (op :: rest) =>
      ({ s with
          engine := { s.engine with crdtBook := (s.engine.crdtBook.applyRemoteOperation op).1 }
          receiver := .handling msg host port rest }, [])
    | _ => (s, [])
  | .lookUp =>
    match s.receiver with
    | .handling msg host port [] =>
      ({ s with
          receiver := ((s.engine.response msg).map fun r =>
            .answering r.1 r.2 host port).getD .waiting }, [])
    | _ => (s, [])
  | .sendAnswer =>
    match s.receiver with
    | .answering type ops host port =>
      ({ s with receiver := .waiting }, [⟨s.engine.message type ops, host, port⟩])
    | _ => (s, [])
  | .client call =>
    ({ s with engine := { s.engine with crdtBook := call.run s.engine.crdtBook } }, [])

/-- The thread stands where the critical section begins. -/
def CanTake (s : EngineThreads) : ThreadAction → Prop
  | .choosePeer _ => s.gossip = .idle
  | .readClock => ∃ host port mode, s.gossip = .chosen host port mode
  | .sendRound => ∃ host port mode clock, s.gossip = .clocked host port mode clock
  | .chooseHeartbeat _ => s.gossip = .idle
  | .sendHeartbeat => ∃ host port, s.gossip = .beating host port
  | .checkLiveness _ => s.gossip = .idle
  | .receive _ => s.receiver = .waiting
  | .applyNext => ∃ msg host port op rest, s.receiver = .handling msg host port (op :: rest)
  | .lookUp => ∃ msg host port, s.receiver = .handling msg host port []
  | .sendAnswer => ∃ type ops host port, s.receiver = .answering type ops host port
  | .client call => call.IsLocal

/-- The call of the replica that a step makes. -/
def calls (s : EngineThreads) : ThreadAction → List (Call ℚ)
  | .applyNext =>
    match s.receiver with
    | .handling _ _ _ (op :: _) => [.applyRemote op]
    | _ => []
  | .client call => [call]
  | _ => []

theorem crdtBook_selectPeer (φ : GoldenRatio) (e : GossipEngine) (choice : ℕ) :
    (e.selectPeer φ choice).1.crdtBook = e.crdtBook := by
  rw [GossipEngine.selectPeer]
  split
  · rfl
  · rw [GossipEngine.selectRoundRobinPeer]
    split_ifs <;> rfl
  · rw [GossipEngine.selectWythoffPeer]
    split_ifs <;> rfl

/-- A step changes the replica by the call that it makes, and not otherwise. -/
theorem crdtBook_step (φ : GoldenRatio) (s : EngineThreads) (action : ThreadAction) :
    (s.step φ action).1.engine.crdtBook =
      (s.calls action).foldl Call.run s.engine.crdtBook := by
  cases action with
  | choosePeer choice => exact crdtBook_selectPeer φ s.engine choice
  | applyNext =>
    rw [step, calls]
    split <;> rfl
  | readClock =>
    rw [step]
    split <;> rfl
  | sendRound =>
    rw [step]
    split <;> rfl
  | sendHeartbeat =>
    rw [step]
    split <;> rfl
  | lookUp =>
    rw [step]
    split <;> rfl
  | sendAnswer =>
    rw [step]
    split <;> rfl
  | _ => rfl

end EngineThreads

variable {N : Type*}

/-- The nodes, and all datagrams sent so far. -/
structure ThreadedNetwork (N : Type*) where
  nodes : N → EngineThreads
  sent : List (Packet N)

/-- The steps of a network of threads. Packets are named by their places among those sent. -/
inductive ThreadTurn (N : Type*)
  | act (n : N) (action : ThreadAction)
  | deliver (k now : ℕ)

namespace ThreadedNetwork

variable [DecidableEq N]

/-- The node `n` has taken a step, in which it sent datagrams. -/
def afterStep (a : Addressing N) (s : ThreadedNetwork N) (n : N)
    (r : EngineThreads × List Datagram) : ThreadedNetwork N where
  nodes := Function.update s.nodes n r.1
  sent := s.sent ++ a.packets n r.2

/-- What the receiving thread is handed of a packet. -/
def receipt (p : Packet N) (now : ℕ) : Receipt := ⟨p.msg, p.senderHost, p.senderPort, now⟩

/-- A network after a step. -/
def step (φ : GoldenRatio) (a : Addressing N) (s : ThreadedNetwork N) :
    ThreadTurn N → ThreadedNetwork N
  | .act n action => s.afterStep a n ((s.nodes n).step φ action)
  | .deliver k now =>
    match s.sent[k]? with
    | none => s
    | some p => s.afterStep a p.dst ((s.nodes p.dst).step φ (.receive (receipt p now)))

/-- The replica of a node. -/
def replica (s : ThreadedNetwork N) (n : N) : CRDTOrderBook ℚ := (s.nodes n).engine.crdtBook

/-- No operation in any log has the id. -/
def FreshOpId (s : ThreadedNetwork N) (id : Str) : Prop :=
  ∀ n, ∀ op ∈ (s.replica n).opLog, op.opId ≠ id

/-- No operation in any log adds an order with the id. -/
def FreshOrderId (s : ThreadedNetwork N) (id : Str) : Prop :=
  ∀ n, ∀ op ∈ (s.replica n).opLog, op.IsAdd → op.order.orderId ≠ id

/-- Generated ids are new, and `ClientHandler::handle` has checked the quantity. -/
def ClientMay (s : ThreadedNetwork N) : Call ℚ → Prop
  | .addOrder _ _ quantity oid opId => (s.FreshOrderId oid ∧ s.FreshOpId opId) ∧ 0 < quantity
  | .cancelOrder _ opId _ => s.FreshOpId opId
  | .marketOrder _ _ gen =>
    (Function.Injective fun i => (gen i).1) ∧ ∀ i, s.FreshOpId (gen i).1
  | .applyRemote _ => False

/-- The step can be taken. A thread receives what has been sent to it, and nothing else. -/
def CanTake (s : ThreadedNetwork N) : ThreadTurn N → Prop
  | .act n action =>
    match action with
    | .receive _ => False
    | .client call => s.ClientMay call
    | action => (s.nodes n).CanTake action
  | .deliver k _ => ∃ p, s.sent[k]? = some p ∧ (s.nodes p.dst).receiver = .waiting

/-- The calls of the replicas that a step makes, by node id. -/
def calls (id : N → Str) (s : ThreadedNetwork N) : ThreadTurn N → List (Str × Call ℚ)
  | .act n action => ((s.nodes n).calls action).map fun call => (id n, call)
  | .deliver _ _ => []

/-- Fresh replicas, nothing sent, and the threads at their loops. -/
structure Starts (id : N → Str) (s : ThreadedNetwork N) : Prop where
  nodeId : ∀ n, (s.nodes n).engine.nodeId = id n
  crdtBook : ∀ n, (s.nodes n).engine.crdtBook = .new (id n)
  gossip : ∀ n, (s.nodes n).gossip = .idle
  receiver : ∀ n, (s.nodes n).receiver = .waiting
  sent : s.sent = []

end ThreadedNetwork

/-- The runs of a network of threads from the state `s`. -/
def threadSystem [DecidableEq N] (φ : GoldenRatio) (a : Addressing N) (s : ThreadedNetwork N) :
    TransitionSystem (ThreadedNetwork N) (ThreadTurn N) where
  init := s
  enabled := ThreadedNetwork.CanTake
  step := ThreadedNetwork.step φ a

end Convergence
