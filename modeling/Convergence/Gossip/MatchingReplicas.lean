import Convergence.Gossip.RoundTrip
import Convergence.Gossip.Turns

/-!
# What the replicas do not tell apart

A clock is a hash map, so the order of its entries is not part of what it says, and the order that a
cancellation carries is never looked at. Replicas, messages and threads that differ in nothing else
match, and every critical section keeps that: the same choices are made, and matching messages are
sent to the same addresses.

## Main definitions

* `Operation.Matches`, `Message.Matches`, `CRDTOrderBook.Matches`, `GossipEngine.Matches`.
* `ThreadAction.Matches`, `EngineThreads.Matches`.

## Main results

* `VectorClock.Same.merge`, `CRDTOrderBook.Matches.run`.
* `EngineThreads.Matches.step`.
-/

namespace Convergence

/-! ### Clocks as maps -/

namespace VectorClock

variable {c c' d d' : VectorClock}

@[refl] theorem Same.refl (c : VectorClock) : c.Same c := ⟨rfl, fun _ => rfl⟩

theorem Same.trans {c₁ c₂ c₃ : VectorClock} (h : c₁.Same c₂) (h' : c₂.Same c₃) : c₁.Same c₃ :=
  ⟨h.nodeId.trans h'.nodeId, fun k => (h.lookup k).trans (h'.lookup k)⟩

theorem Same.get (h : c.Same c') : c.get = c'.get :=
  funext fun k => congrArg (Option.getD · 0) (h.lookup k)

theorem Same.perm (h : c.Same c') : c.clock.entries.Perm c'.clock.entries :=
  List.lookup_ext c.clock.nodupKeys c'.clock.nodupKeys fun k v => by
    change v ∈ c.clock.lookup k ↔ v ∈ c'.clock.lookup k
    rw [h.lookup k]

theorem Same.snd_tick (h : c.Same c') : c.tick.2 = c'.tick.2 := by
  rw [VectorClock.snd_tick, VectorClock.snd_tick, h.get, h.nodeId]

theorem Same.tick (h : c.Same c') : c.tick.1.Same c'.tick.1 where
  nodeId := h.nodeId
  lookup k := by
    change (c.clock.set c.nodeId c.tick.2).lookup k = (c'.clock.set c'.nodeId c'.tick.2).lookup k
    rw [ClockMap.lookup_set, ClockMap.lookup_set, h.nodeId, h.snd_tick, h.lookup k]

end VectorClock

/-- The loop of `merge`, as an operation on maps. -/
theorem ClockMap.lookup_foldl_raise {l : List ((_ : Str) × ℕ)} (hl : l.NodupKeys) (m : ClockMap)
    (k : Str) : (l.foldl raise m).lookup k =
      ((l.dlookup k).map (max (m.counter k))).or (m.lookup k) := by
  induction l generalizing m with
  | nil => rfl
  | cons e l ih =>
    obtain ⟨he, hl⟩ := List.nodupKeys_cons.mp hl
    have hraise : (m.raise e).lookup k =
        if k = e.1 then some (max (m.counter e.1) e.2) else m.lookup k := lookup_set ..
    rw [List.foldl_cons, ih hl, hraise, counter_raise, SortedMap.dlookup_cons,
      Function.update_apply]
    split_ifs with hk
    · -- The key of `e` does not occur again.
      subst hk
      rw [List.dlookup_eq_none.mpr he]
      rfl
    · rfl

namespace VectorClock

variable {c c' d d' : VectorClock}

theorem Same.merge (h : c.Same c') (h' : d.Same d') : (c.merge d).Same (c'.merge d') where
  nodeId := h.nodeId
  lookup k := by
    have hcounter : c.clock.counter k = c'.clock.counter k := congrFun h.get k
    have hlookup : d.clock.entries.dlookup k = d'.clock.entries.dlookup k := h'.lookup k
    change (d.clock.entries.foldl ClockMap.raise c.clock).lookup k =
      (d'.clock.entries.foldl ClockMap.raise c'.clock).lookup k
    rw [ClockMap.lookup_foldl_raise d.clock.nodupKeys,
      ClockMap.lookup_foldl_raise d'.clock.nodupKeys, hcounter, hlookup, h.lookup k]

theorem Same.happensBefore (h : c.Same c') (h' : d.Same d') :
    c.happensBefore d = c'.happensBefore d' := by
  rw [Bool.eq_iff_iff, happensBefore_iff, happensBefore_iff, h.get, h'.get]

theorem Same.sameClock (h : c.Same c') (h' : d.Same d') : c.sameClock d = c'.sameClock d' :=
  decide_eq_decide.mpr ⟨fun hp => (h.perm.symm.trans hp).trans h'.perm,
    fun hp => (h.perm.trans hp).trans h'.perm.symm⟩

end VectorClock

/-! ### Operations and messages -/

/-- Equal but for the iteration order of the clock, and for the order of an operation that adds
none. -/
structure Operation.Matches (op op' : Operation ℚ) : Prop where
  type : op.type = op'.type
  order : op.IsAdd → op.order = op'.order
  cancelOrderId : op.cancelOrderId = op'.cancelOrderId
  originNode : op.originNode = op'.originNode
  clock : op.clock.Same op'.clock
  opId : op.opId = op'.opId

namespace Operation.Matches

variable {op op' op'' : Operation ℚ}

@[refl] theorem refl (op : Operation ℚ) : op.Matches op :=
  ⟨rfl, fun _ => rfl, rfl, rfl, .refl _, rfl⟩

theorem isAdd_iff (h : op.Matches op') : op.IsAdd ↔ op'.IsAdd := by
  rw [IsAdd, IsAdd, h.type]

theorem trans (h : op.Matches op') (h' : op'.Matches op'') : op.Matches op'' where
  type := h.type.trans h'.type
  order hadd := (h.order hadd).trans (h'.order (h.isAdd_iff.mp hadd))
  cancelOrderId := h.cancelOrderId.trans h'.cancelOrderId
  originNode := h.originNode.trans h'.originNode
  clock := h.clock.trans h'.clock
  opId := h.opId.trans h'.opId

/-- Matching operations do the same to a book. -/
theorem applyOperation_eq (h : op.Matches op') (b : OrderBook ℚ) :
    b.applyOperation op = b.applyOperation op' := by
  by_cases hadd : op.IsAdd
  · rw [b.applyOperation_add hadd, b.applyOperation_add (h.isAdd_iff.mp hadd), h.order hadd]
  · have hadd' := mt h.isAdd_iff.mpr hadd
    by_cases hcancel : op.IsCancel
    · have hcancel' : op'.IsCancel := h.type.symm.trans hcancel
      rw [b.applyOperation_cancel hcancel, b.applyOperation_cancel hcancel', h.cancelOrderId]
    · have hcancel' : ¬ op'.IsCancel := fun hc => hcancel (h.type.trans hc)
      rw [b.applyOperation_other hadd hcancel, b.applyOperation_other hadd' hcancel']

end Operation.Matches

/-- Logs and messages list matching operations in the same order. -/
abbrev OperationsMatch : List (Operation ℚ) → List (Operation ℚ) → Prop :=
  List.Forall₂ Operation.Matches

theorem OperationsMatch.refl (ops : List (Operation ℚ)) : OperationsMatch ops ops :=
  List.forall₂_same.mpr fun op _ => .refl op

theorem OperationsMatch.eq_nil_iff {ops ops' : List (Operation ℚ)} (h : OperationsMatch ops ops') :
    ops = [] ↔ ops' = [] := by
  rw [← List.length_eq_zero_iff, h.length_eq, List.length_eq_zero_iff]

theorem OperationsMatch.trans {ops₁ ops₂ ops₃ : List (Operation ℚ)}
    (h : OperationsMatch ops₁ ops₂) (h' : OperationsMatch ops₂ ops₃) :
    OperationsMatch ops₁ ops₃ := by
  induction h generalizing ops₃ with
  | nil => exact h'
  | cons hop _ ih =>
    cases h' with
    | cons hop' hops' => exact .cons (hop.trans hop') (ih hops')

/-- What holds of all operations of one list, and does not tell matching operations apart. -/
theorem OperationsMatch.forall_of {ops ops' : List (Operation ℚ)} (h : OperationsMatch ops ops')
    {p : Operation ℚ → Prop} (hp : ∀ op op', op.Matches op' → p op' → p op)
    (hops : ∀ op ∈ ops', p op) : ∀ op ∈ ops, p op := by
  induction h with
  | nil => exact fun op hop => absurd hop List.not_mem_nil
  | cons hop _ ih =>
    obtain ⟨hhead, htail⟩ := List.forall_mem_cons.mp hops
    exact List.forall_mem_cons.mpr ⟨hp _ _ hop hhead, ih htail⟩

/-- Equal but for the iteration order of clocks, and for orders that are not added. -/
structure Message.Matches (m m' : Message) : Prop where
  type : m.type = m'.type
  senderId : m.senderId = m'.senderId
  senderClock : m.senderClock.Same m'.senderClock
  operations : OperationsMatch m.operations m'.operations

theorem Message.Matches.trans {m₁ m₂ m₃ : Message} (h : m₁.Matches m₂) (h' : m₂.Matches m₃) :
    m₁.Matches m₃ where
  type := h.type.trans h'.type
  senderId := h.senderId.trans h'.senderId
  senderClock := h.senderClock.trans h'.senderClock
  operations := h.operations.trans h'.operations

theorem Message.Matches.toApply {m m' : Message} (h : m.Matches m') :
    OperationsMatch m.toApply m'.toApply := by
  rw [Message.toApply, Message.toApply, h.type]
  split_ifs
  · exact h.operations
  · exact .nil

/-! ### Replicas -/

/-- Replicas that show the same, with matching logs and the same clock. -/
structure CRDTOrderBook.Matches (r r' : CRDTOrderBook ℚ) : Prop where
  nodeId : r.nodeId = r'.nodeId
  book : r.book = r'.book
  clock : r.clock.Same r'.clock
  opLog : OperationsMatch r.opLog r'.opLog
  seenOps : r.seenOps = r'.seenOps

namespace CRDTOrderBook.Matches

variable {r r' : CRDTOrderBook ℚ} {op op' : Operation ℚ}

@[refl] theorem refl (r : CRDTOrderBook ℚ) : r.Matches r := ⟨rfl, rfl, .refl _, .refl _, rfl⟩

theorem ticked (h : r.Matches r') (b : OrderBook ℚ) : (r.ticked b).Matches (r'.ticked b) where
  nodeId := h.nodeId
  book := rfl
  clock := h.clock.tick
  opLog := h.opLog
  seenOps := h.seenOps

theorem log (h : r.Matches r') (hop : op.Matches op') : (r.log op).Matches (r'.log op') where
  nodeId := h.nodeId
  book := h.book
  clock := h.clock
  opLog := List.rel_append h.opLog (.cons hop .nil)
  seenOps := by
    change insert op.opId r.seenOps = insert op'.opId r'.seenOps
    rw [h.seenOps, hop.opId]

theorem newOrder (h : r.Matches r') (side : Side) (price : ℚ) (quantity : ℤ) (oid : Str) :
    r.newOrder side price quantity oid = r'.newOrder side price quantity oid := by
  rw [CRDTOrderBook.newOrder, CRDTOrderBook.newOrder, h.nodeId, h.clock.snd_tick]

theorem addOperation (h : r.Matches r') (o : Order ℚ) (opId : Str) :
    (r.addOperation o opId).Matches (r'.addOperation o opId) :=
  ⟨rfl, fun _ => rfl, rfl, h.nodeId, h.clock, rfl⟩

theorem cancelOperation (h : r.Matches r') (orderId opId : Str) (u : Uninit ℚ) :
    (r.cancelOperation orderId opId u).Matches (r'.cancelOperation orderId opId u) :=
  ⟨rfl, fun _ => rfl, rfl, h.nodeId, h.clock, rfl⟩

theorem logFills (h : r.Matches r') (gen : ℕ → Str × Uninit ℚ) (fills : List (Fill ℚ)) :
    (r.logFills gen fills).Matches (r'.logFills gen fills) := by
  induction fills generalizing r r' gen with
  | nil => exact h
  | cons fill fills ih =>
    rw [CRDTOrderBook.logFills, CRDTOrderBook.logFills, h.book]
    split_ifs
    · exact ih h gen
    · exact ih (h.log (h.cancelOperation ..)) _

theorem localCancelOrder (h : r.Matches r') (orderId opId : Str) (u : Uninit ℚ) :
    (r.localCancelOrder orderId opId u).1.Matches (r'.localCancelOrder orderId opId u).1 := by
  by_cases hid : orderId ∈ r'.book.orders
  · rw [localCancelOrder_of_mem hid, localCancelOrder_of_mem (h.book.symm ▸ hid), h.book]
    split_ifs
    · exact (h.ticked _).log ((h.ticked _).cancelOperation ..)
    · exact h.ticked _
  · rwa [localCancelOrder_of_notMem hid, localCancelOrder_of_notMem (h.book.symm ▸ hid)]

theorem applyRemoteOperation (h : r.Matches r') (hop : op.Matches op') :
    (r.applyRemoteOperation op).1.Matches (r'.applyRemoteOperation op').1 := by
  rw [CRDTOrderBook.applyRemoteOperation, CRDTOrderBook.applyRemoteOperation, h.seenOps, hop.opId]
  split_ifs
  · exact h
  · refine log ⟨h.nodeId, ?_, h.clock.merge hop.clock, h.opLog, rfl⟩ hop
    change r.book.applyOperation op = r'.book.applyOperation op'
    rw [h.book, hop.applyOperation_eq]

/-- A client finds no difference between matching replicas. -/
theorem run (h : r.Matches r') {call : Call ℚ} (hcall : call.IsLocal) :
    (call.run r).Matches (call.run r') := by
  cases call with
  | addOrder side price quantity oid opId =>
    rw [Call.run, Call.run, CRDTOrderBook.localAddOrder, CRDTOrderBook.localAddOrder, h.newOrder,
      h.book]
    exact (h.ticked _).log ((h.ticked _).addOperation ..)
  | cancelOrder orderId opId u => exact h.localCancelOrder orderId opId u
  | marketOrder side quantity gen =>
    rw [Call.run, Call.run, CRDTOrderBook.localMarketOrder, CRDTOrderBook.localMarketOrder, h.book]
    exact (h.ticked _).logFills gen _
  | applyRemote => exact hcall.elim

theorem getOperationsSince (h : r.Matches r') {c c' : VectorClock} (hc : c.Same c') :
    OperationsMatch (r.getOperationsSince c) (r'.getOperationsSince c') := by
  refine List.rel_filter (fun op op' hop => ?_) h.opLog
  simp only [hop.clock.happensBefore hc, hop.clock.sameClock hc]

end CRDTOrderBook.Matches

/-! ### Engines -/

/-- Datagrams to one address, with matching messages. -/
structure Datagram.Matches (d d' : Datagram) : Prop where
  msg : d.msg.Matches d'.msg
  host : d.host = d'.host
  port : d.port = d'.port

/-- Engines that only differ in what their replicas do not tell. -/
def GossipEngine.Matches (e e' : GossipEngine) : Prop :=
  ∃ r, e.crdtBook.Matches r ∧ e' = { e with crdtBook := r }

namespace GossipEngine.Matches

variable {e e' : GossipEngine} {m m' : Message}

@[refl] theorem refl (e : GossipEngine) : e.Matches e := ⟨e.crdtBook, .refl _, rfl⟩

theorem crdtBook (h : e.Matches e') : e.crdtBook.Matches e'.crdtBook := by
  obtain ⟨r, hr, rfl⟩ := h
  exact hr

theorem withBook (h : e.Matches e') {r r' : CRDTOrderBook ℚ} (hr : r.Matches r') :
    Matches { e with crdtBook := r } { e' with crdtBook := r' } := by
  obtain ⟨_, -, rfl⟩ := h
  exact ⟨r', hr, rfl⟩

theorem withPeers (h : e.Matches e') (peers : List PeerInfo) :
    Matches { e with peers := peers } { e' with peers := peers } := by
  obtain ⟨r, hr, rfl⟩ := h
  exact ⟨r, hr, rfl⟩

theorem peers (h : e.Matches e') : e.peers = e'.peers := by
  obtain ⟨r, hr, rfl⟩ := h
  rfl

theorem checkLiveness (h : e.Matches e') (now : ℕ) :
    (e.checkLiveness now).Matches (e'.checkLiveness now) := by
  obtain ⟨r, hr, rfl⟩ := h
  exact ⟨r, hr, rfl⟩

theorem message (h : e.Matches e') (type : MessageType) {ops ops' : List (Operation ℚ)}
    (hops : OperationsMatch ops ops') : (e.message type ops).Matches (e'.message type ops') := by
  obtain ⟨r, hr, rfl⟩ := h
  exact ⟨rfl, rfl, hr.clock, hops⟩

theorem roundMessage (h : e.Matches e') (mode : SyncMode) :
    (e.roundMessage mode).Matches (e'.roundMessage mode) := by
  have hlog := h.crdtBook.opLog
  have hstrategy : e.strategy = e'.strategy := by
    obtain ⟨r, hr, rfl⟩ := h
    rfl
  rw [GossipEngine.roundMessage, GossipEngine.roundMessage, hstrategy]
  simp only
  split_ifs
  · exact h.message _ .nil
  · rw [hlog.length_eq]
    exact h.message _ (List.forall₂_drop _ hlog)
  · rw [hlog.length_eq]
    exact h.message _ (List.forall₂_drop _ hlog)

theorem syncRequest (h : e.Matches e') (revived : Option PeerInfo) :
    List.Forall₂ Datagram.Matches (e.syncRequest revived) (e'.syncRequest revived) := by
  cases revived with
  | none => exact .nil
  | some p => exact .cons ⟨h.message _ .nil, rfl, rfl⟩ .nil

/-- The choice of a peer does not look at the replica. -/
theorem selectPeer (h : e.Matches e') (φ : GoldenRatio) (choice : ℕ) :
    (e.selectPeer φ choice).1.Matches (e'.selectPeer φ choice).1 ∧
      (e.selectPeer φ choice).2 = (e'.selectPeer φ choice).2 := by
  obtain ⟨r, hr, rfl⟩ := h
  obtain ⟨nodeId, book, peers, timeout, strategy, scheduler, round, index, rrIndex⟩ := e
  cases strategy with
  | random => exact ⟨⟨r, hr, rfl⟩, rfl⟩
  | roundRobin =>
    simp only [GossipEngine.selectPeer, GossipEngine.selectRoundRobinPeer]
    split_ifs
    · exact ⟨⟨r, hr, rfl⟩, rfl⟩
    · exact ⟨⟨r, hr, rfl⟩, rfl⟩
  | wythoff =>
    simp only [GossipEngine.selectPeer, GossipEngine.selectWythoffPeer]
    split_ifs
    · exact ⟨⟨r, hr, rfl⟩, rfl⟩
    · exact ⟨⟨r, hr, rfl⟩, rfl⟩
    · exact ⟨⟨r, hr, rfl⟩, rfl⟩

/-- Both respond, with matching operations, or none does. -/
theorem response (h : e.Matches e') (hm : m.Matches m') :
    Option.Rel (fun r r' => r.1 = r'.1 ∧ OperationsMatch r.2 r'.2) (e.response m)
      (e'.response m') := by
  have hops := h.crdtBook.getOperationsSince hm.senderClock
  simp only [GossipEngine.response, hm.type, hops.eq_nil_iff]
  split_ifs
  · exact .none
  · exact .some ⟨rfl, List.forall₂_take 20 hops⟩
  · exact .none
  · exact .some ⟨rfl, hops⟩
  · exact .some ⟨rfl, hops⟩
  · exact .none

end GossipEngine.Matches

/-! ### Threads -/

/-- The threads stand at the same place. -/
inductive GossipThread.Matches : GossipThread → GossipThread → Prop
  | idle : Matches .idle .idle
  | chosen (host : Str) (port : ℕ) (mode : SyncMode) :
      Matches (.chosen host port mode) (.chosen host port mode)
  | clocked (host : Str) (port : ℕ) (mode : SyncMode) {c c' : VectorClock} (h : c.Same c') :
      Matches (.clocked host port mode c) (.clocked host port mode c')
  | beating (host : Str) (port : ℕ) : Matches (.beating host port) (.beating host port)

/-- The threads stand at the same place, with matching operations in hand. -/
inductive ReceiveThread.Matches : ReceiveThread → ReceiveThread → Prop
  | waiting : Matches .waiting .waiting
  | handling {m m' : Message} (hm : m.Matches m') (host : Str) (port : ℕ)
      {rest rest' : List (Operation ℚ)} (hrest : OperationsMatch rest rest') :
      Matches (.handling m host port rest) (.handling m' host port rest')
  | answering (type : MessageType) {ops ops' : List (Operation ℚ)} (hops : OperationsMatch ops ops')
      (host : Str) (port : ℕ) :
      Matches (.answering type ops host port) (.answering type ops' host port)

/-- After the operations have been looked up. -/
theorem ReceiveThread.Matches.looked {x x' : Option (MessageType × List (Operation ℚ))}
    (h : Option.Rel (fun r r' => r.1 = r'.1 ∧ OperationsMatch r.2 r'.2) x x') (host : Str)
    (port : ℕ) :
    Matches ((x.map fun r => .answering r.1 r.2 host port).getD .waiting)
      ((x'.map fun r => .answering r.1 r.2 host port).getD .waiting) := by
  cases h with
  | none => exact .waiting
  | @some r r' hr =>
    obtain ⟨type, ops⟩ := r
    obtain ⟨type', ops'⟩ := r'
    obtain ⟨rfl, hops⟩ : type = type' ∧ OperationsMatch ops ops' := hr
    exact .answering type hops host port

/-- Nodes whose engines and threads match. -/
structure EngineThreads.Matches (s s' : EngineThreads) : Prop where
  engine : s.engine.Matches s'.engine
  gossip : s.gossip.Matches s'.gossip
  receiver : s.receiver.Matches s'.receiver

/-- The same critical section, on matching messages. -/
inductive ThreadAction.Matches : ThreadAction → ThreadAction → Prop
  | own {action : ThreadAction} (h : action.IsOwn) : Matches action action
  | client {call : Call ℚ} (h : call.IsLocal) : Matches (.client call) (.client call)
  | receive {m m' : Message} (hm : m.Matches m') (host : Str) (port now : ℕ) :
      Matches (.receive ⟨m, host, port, now⟩) (.receive ⟨m', host, port, now⟩)

namespace EngineThreads.Matches

variable {s s' : EngineThreads} {action action' : ThreadAction}

/-- Matching nodes can take the same critical sections. -/
theorem canTake (h : s.Matches s') (haction : action.IsOwn) (hs : s'.CanTake action) :
    s.CanTake action := by
  obtain ⟨e, g, r⟩ := s
  obtain ⟨e', g', r'⟩ := s'
  obtain ⟨-, hg, hr⟩ := h
  cases action with
  | choosePeer =>
    obtain rfl : g' = .idle := hs
    cases hg
    rfl
  | chooseHeartbeat =>
    obtain rfl : g' = .idle := hs
    cases hg
    rfl
  | checkLiveness =>
    obtain rfl : g' = .idle := hs
    cases hg
    rfl
  | readClock =>
    obtain ⟨host, port, mode, rfl⟩ := hs
    cases hg
    exact ⟨host, port, mode, rfl⟩
  | sendRound =>
    obtain ⟨host, port, mode, clock, rfl⟩ := hs
    cases hg
    exact ⟨host, port, mode, _, rfl⟩
  | sendHeartbeat =>
    obtain ⟨host, port, rfl⟩ := hs
    cases hg
    exact ⟨host, port, rfl⟩
  | applyNext =>
    obtain ⟨m, host, port, op, rest, rfl⟩ := hs
    cases hr with
    | handling hm _ _ hrest =>
      cases hrest with
      | cons hop hrest => exact ⟨_, host, port, _, _, rfl⟩
  | lookUp =>
    obtain ⟨m, host, port, rfl⟩ := hs
    cases hr with
    | handling hm _ _ hrest =>
      cases hrest
      exact ⟨_, host, port, rfl⟩
  | sendAnswer =>
    obtain ⟨type, ops, host, port, rfl⟩ := hs
    cases hr
    exact ⟨type, _, host, port, rfl⟩
  | receive => exact haction.elim
  | client => exact haction.elim

/-- **Critical sections do not tell matching nodes apart.** The nodes match afterwards, and what
they send matches. -/
theorem step (h : s.Matches s') (φ : GoldenRatio) (haction : action.Matches action') :
    (s.step φ action).1.Matches (s'.step φ action').1 ∧
      List.Forall₂ Datagram.Matches (s.step φ action).2 (s'.step φ action').2 := by
  obtain ⟨e, g, r⟩ := s
  obtain ⟨e', g', r'⟩ := s'
  obtain ⟨he, hg, hr⟩ := h
  cases haction with
  | client hcall => exact ⟨⟨he.withBook (he.crdtBook.run hcall), hg, hr⟩, .nil⟩
  | receive hm host port now =>
    have htouched : touchPeers _ host now e.peers = touchPeers _ host now e'.peers :=
      congrArg₂ (fun id => touchPeers id host now) hm.senderId he.peers
    simp only [EngineThreads.step, htouched]
    exact ⟨⟨he.withPeers _, hg, .handling hm host port hm.toApply⟩, (he.withPeers _).syncRequest _⟩
  | own haction =>
    cases action with
    | choosePeer choice =>
      obtain ⟨hengine, hchoice⟩ := he.selectPeer φ choice
      refine ⟨⟨hengine, ?_, hr⟩, .nil⟩
      simp only [EngineThreads.step, hchoice]
      cases (e'.selectPeer φ choice).2.1 with
      | none => exact .idle
      | some p => exact .chosen ..
    | chooseHeartbeat choice =>
      have hchoice : selectRandomPeer e.peers choice = selectRandomPeer e'.peers choice :=
        congrArg (selectRandomPeer · choice) he.peers
      refine ⟨⟨he, ?_, hr⟩, .nil⟩
      simp only [EngineThreads.step, hchoice]
      cases selectRandomPeer e'.peers choice with
      | none => exact .idle
      | some p => exact .beating ..
    | checkLiveness now => exact ⟨⟨he.checkLiveness now, hg, hr⟩, .nil⟩
    | readClock =>
      cases hg with
      | chosen host port mode => exact ⟨⟨he, .clocked host port mode he.crdtBook.clock, hr⟩, .nil⟩
      | idle => exact ⟨⟨he, .idle, hr⟩, .nil⟩
      | clocked host port mode hc => exact ⟨⟨he, .clocked host port mode hc, hr⟩, .nil⟩
      | beating host port => exact ⟨⟨he, .beating host port, hr⟩, .nil⟩
    | sendRound =>
      cases hg with
      | clocked host port mode hc =>
        obtain ⟨htype, hsender, -, hops⟩ := he.roundMessage mode
        exact ⟨⟨he, .idle, hr⟩, .cons ⟨⟨htype, hsender, hc, hops⟩, rfl, rfl⟩ .nil⟩
      | idle => exact ⟨⟨he, .idle, hr⟩, .nil⟩
      | chosen host port mode => exact ⟨⟨he, .chosen host port mode, hr⟩, .nil⟩
      | beating host port => exact ⟨⟨he, .beating host port, hr⟩, .nil⟩
    | sendHeartbeat =>
      cases hg with
      | beating host port => exact ⟨⟨he, .idle, hr⟩, .cons ⟨he.message _ .nil, rfl, rfl⟩ .nil⟩
      | idle => exact ⟨⟨he, .idle, hr⟩, .nil⟩
      | chosen host port mode => exact ⟨⟨he, .chosen host port mode, hr⟩, .nil⟩
      | clocked host port mode hc => exact ⟨⟨he, .clocked host port mode hc, hr⟩, .nil⟩
    | applyNext =>
      cases hr with
      | handling hm host port hrest =>
        cases hrest with
        | nil => exact ⟨⟨he, hg, .handling hm host port .nil⟩, .nil⟩
        | cons hop hrest =>
          exact ⟨⟨he.withBook (he.crdtBook.applyRemoteOperation hop), hg,
            .handling hm host port hrest⟩, .nil⟩
      | waiting => exact ⟨⟨he, hg, .waiting⟩, .nil⟩
      | answering type hops host port => exact ⟨⟨he, hg, .answering type hops host port⟩, .nil⟩
    | lookUp =>
      cases hr with
      | handling hm host port hrest =>
        cases hrest with
        | nil =>
          exact ⟨⟨he, hg, .looked (he.response hm) host port⟩, .nil⟩
        | cons hop hrest => exact ⟨⟨he, hg, .handling hm host port (.cons hop hrest)⟩, .nil⟩
      | waiting => exact ⟨⟨he, hg, .waiting⟩, .nil⟩
      | answering type hops host port => exact ⟨⟨he, hg, .answering type hops host port⟩, .nil⟩
    | sendAnswer =>
      cases hr with
      | answering type hops host port =>
        exact ⟨⟨he, hg, .waiting⟩, .cons ⟨he.message type hops, rfl, rfl⟩ .nil⟩
      | waiting => exact ⟨⟨he, hg, .waiting⟩, .nil⟩
      | handling hm host port hrest =>
        exact ⟨⟨he, hg, .handling hm host port hrest⟩, .nil⟩
    | receive => exact haction.elim
    | client => exact haction.elim

end EngineThreads.Matches

end Convergence
