import Convergence.OrderBook.Book
import Convergence.Crdt.VectorClock
import Mathlib.Data.Finset.Insert

/-!
# The replicated order book

The class of `crdt_orderbook.cpp`: an order book with a vector clock, the log of the operations
created and applied here, and the set of their ids. Every method holds the lock of its replica from
start to end, so a call is one function from a state to the next.

The values of `generate_uuid` are parameters, as are the fields of the `Order` of a `CANCEL_ORDER`
operation that the constructor leaves uninitialised.

## Main definitions

* `OpType`, `Operation`, `CRDTOrderBook`, `CRDTOrderBook.new`.
* `CRDTOrderBook.localAddOrder`, `CRDTOrderBook.localCancelOrder`,
  `CRDTOrderBook.localMarketOrder`, `CRDTOrderBook.applyRemoteOperation`.
* `CRDTOrderBook.getOperationsSince`: the answer to an anti-entropy request.
* `CRDTOrderBook.replay`: a sequence of remote operations.
-/

namespace Convergence

/-- `enum class OpType : uint8_t`. -/
structure OpType where
  /-- The underlying byte. -/
  code : UInt8
  deriving DecidableEq

/-- `OpType::ADD_ORDER`. -/
def OpType.addOrder : OpType := ⟨0⟩

/-- `OpType::CANCEL_ORDER`. -/
def OpType.cancelOrder : OpType := ⟨1⟩

/-- A replicated operation. -/
structure Operation (P : Type*) where
  type : OpType
  /-- The order of an `ADD_ORDER`. -/
  order : Order P
  /-- The id a `CANCEL_ORDER` names. -/
  cancelOrderId : Str
  originNode : Str
  clock : VectorClock
  /-- The id by which repeated deliveries are recognised. -/
  opId : Str
  deriving DecidableEq

/-- The state of a `CRDTOrderBook`. -/
structure CRDTOrderBook (P : Type*) [LinearOrder P] where
  nodeId : Str
  book : OrderBook P
  clock : VectorClock
  opLog : List (Operation P)
  seenOps : Finset Str
  /-- A replica keeps its own clock. -/
  clock_owner : clock.nodeId = nodeId

variable {P : Type*} [LinearOrder P]

/-- The dispatch of `apply_remote_operation` on the type of the operation. -/
def OrderBook.applyOperation (b : OrderBook P) (op : Operation P) : OrderBook P :=
  if op.type = OpType.addOrder then b.insertReplicatedOrder op.order
  else if op.type = OpType.cancelOrder then b.applyReplicatedCancel op.cancelOrderId
  else b

namespace CRDTOrderBook

/-- `CRDTOrderBook::CRDTOrderBook`. -/
def new (nodeId : Str) : CRDTOrderBook P where
  nodeId := nodeId
  book := OrderBook.new
  clock := VectorClock.new nodeId
  opLog := []
  seenOps := ∅
  clock_owner := rfl

/-- `clock_.tick()`, and the book that the rest of the call computes. -/
def ticked (r : CRDTOrderBook P) (book : OrderBook P) : CRDTOrderBook P :=
  { r with
    book := book
    clock := r.clock.tick.1
    clock_owner := r.clock_owner }

/-- `op_log_.push_back(op); seen_ops_.insert(op.op_id);`. -/
def log (r : CRDTOrderBook P) (op : Operation P) : CRDTOrderBook P :=
  { r with
    opLog := r.opLog ++ [op]
    seenOps := insert op.opId r.seenOps }

/-- The order that `local_add_order` builds. -/
def newOrder (r : CRDTOrderBook P) (side : Side) (price : P) (quantity : ℤ) (oid : Str) :
    Order P where
  orderId := oid
  nodeId := r.nodeId
  side := side
  price := price
  quantity := quantity
  remaining := quantity
  timestamp := r.clock.tick.2

/-- The operation that `local_add_order` logs, stamped with the clock after the tick. -/
def addOperation (r : CRDTOrderBook P) (order : Order P) (opId : Str) : Operation P where
  type := OpType.addOrder
  order := order
  cancelOrderId := []
  originNode := r.nodeId
  clock := r.clock
  opId := opId

/-- The operation that `local_cancel_order` and `local_market_order` log. -/
def cancelOperation (r : CRDTOrderBook P) (orderId opId : Str) (u : Uninit P) : Operation P where
  type := OpType.cancelOrder
  order := Order.uninit u
  cancelOrderId := orderId
  originNode := r.nodeId
  clock := r.clock
  opId := opId

/-- `CRDTOrderBook::local_add_order`, the two generated ids being `oid` and `opId`. -/
def localAddOrder (r : CRDTOrderBook P) (side : Side) (price : P) (quantity : ℤ) (oid opId : Str) :
    CRDTOrderBook P × Str :=
  let order := r.newOrder side price quantity oid
  let r' := r.ticked (r.book.addOrder order).1
  (r'.log (r'.addOperation order opId), oid)

/-- `CRDTOrderBook::local_cancel_order`. -/
def localCancelOrder (r : CRDTOrderBook P) (orderId opId : Str) (u : Uninit P) :
    CRDTOrderBook P × Bool :=
  if r.book.hasOrder orderId then
    let (book, cancelled) := r.book.cancelOrder orderId
    let r' := r.ticked book
    -- The clock has advanced even when there is nothing left to cancel.
    if cancelled then (r'.log (r'.cancelOperation orderId opId u), true) else (r', false)
  else (r, false)

/-- The loop of `local_market_order` over the fills; `gen` yields the generated ids in order. -/
def logFills (r : CRDTOrderBook P) (gen : ℕ → Str × Uninit P) : List (Fill P) → CRDTOrderBook P
  | [] => r
  | fill :: fills =>
    if r.book.hasOrder fill.orderId then r.logFills gen fills
    else
      (r.log (r.cancelOperation fill.orderId (gen 0).1 (gen 0).2)).logFills
        (fun n => gen (n + 1)) fills

/-- `CRDTOrderBook::local_market_order`. -/
def localMarketOrder (r : CRDTOrderBook P) (side : Side) (quantity : ℤ)
    (gen : ℕ → Str × Uninit P) : CRDTOrderBook P × List (Fill P) :=
  let (book, fills) := r.book.matchMarketOrder side quantity
  ((r.ticked book).logFills gen fills, fills)

/-- `CRDTOrderBook::apply_remote_operation`. -/
def applyRemoteOperation (r : CRDTOrderBook P) (op : Operation P) : CRDTOrderBook P × Bool :=
  if op.opId ∈ r.seenOps then (r, false)
  else
    (({ r with
        book := r.book.applyOperation op
        clock := r.clock.merge op.clock
        clock_owner := r.clock_owner } : CRDTOrderBook P).log op, true)

/-- `CRDTOrderBook::get_operations_since`. -/
def getOperationsSince (r : CRDTOrderBook P) (peerClock : VectorClock) : List (Operation P) :=
  r.opLog.filter fun op => !op.clock.happensBefore peerClock && !op.clock.sameClock peerClock

/-- `CRDTOrderBook::get_snapshot`. -/
def getSnapshot (r : CRDTOrderBook P) (depth : ℤ) : BookSnapshot P := r.book.getSnapshot depth

/-- `CRDTOrderBook::get_order_count`. -/
def getOrderCount (r : CRDTOrderBook P) : ℕ := r.book.getAllOrders.length

/-- Remote operations applied one after the other. -/
def replay (r : CRDTOrderBook P) (ops : List (Operation P)) : CRDTOrderBook P :=
  ops.foldl (fun r op => (r.applyRemoteOperation op).1) r

/-! ### What the calls do -/

section Log

variable (r : CRDTOrderBook P) (op : Operation P)

@[simp] theorem opLog_new (n : Str) : (new n : CRDTOrderBook P).opLog = [] := rfl

@[simp] theorem seenOps_new (n : Str) : (new n : CRDTOrderBook P).seenOps = ∅ := rfl

@[simp] theorem nodeId_log : (r.log op).nodeId = r.nodeId := rfl

@[simp] theorem book_log : (r.log op).book = r.book := rfl

@[simp] theorem clock_log : (r.log op).clock = r.clock := rfl

@[simp] theorem opLog_log : (r.log op).opLog = r.opLog ++ [op] := rfl

theorem mem_seenOps_log {id : Str} : id ∈ (r.log op).seenOps ↔ id = op.opId ∨ id ∈ r.seenOps :=
  Finset.mem_insert

@[simp] theorem nodeId_ticked (book : OrderBook P) : (r.ticked book).nodeId = r.nodeId := rfl

@[simp] theorem book_ticked (book : OrderBook P) : (r.ticked book).book = book := rfl

@[simp] theorem clock_ticked (book : OrderBook P) : (r.ticked book).clock = r.clock.tick.1 := rfl

@[simp] theorem opLog_ticked (book : OrderBook P) : (r.ticked book).opLog = r.opLog := rfl

@[simp] theorem seenOps_ticked (book : OrderBook P) : (r.ticked book).seenOps = r.seenOps := rfl

end Log

section Cancel

variable {r : CRDTOrderBook P} {orderId opId : Str} {u : Uninit P}

theorem localCancelOrder_of_notMem (h : orderId ∉ r.book.orders) :
    r.localCancelOrder orderId opId u = (r, false) := by
  simp [localCancelOrder, OrderBook.hasOrder, h]

theorem localCancelOrder_of_mem (h : orderId ∈ r.book.orders) :
    r.localCancelOrder orderId opId u =
      if (r.book.cancelOrder orderId).2 = true then
        ((r.ticked (r.book.cancelOrder orderId).1).log
          ((r.ticked (r.book.cancelOrder orderId).1).cancelOperation orderId opId u), true)
      else (r.ticked (r.book.cancelOrder orderId).1, false) := by
  rw [localCancelOrder, OrderBook.hasOrder, decide_eq_true h, if_pos rfl]

end Cancel

section Remote

variable {r : CRDTOrderBook P} {op : Operation P}

theorem applyRemoteOperation_of_seen (h : op.opId ∈ r.seenOps) :
    r.applyRemoteOperation op = (r, false) := if_pos h

theorem nodeId_applyRemoteOperation : (r.applyRemoteOperation op).1.nodeId = r.nodeId := by
  rw [applyRemoteOperation]
  split_ifs <;> rfl

theorem book_applyRemoteOperation (h : op.opId ∉ r.seenOps) :
    (r.applyRemoteOperation op).1.book = r.book.applyOperation op := by
  rw [applyRemoteOperation, if_neg h, book_log]

theorem clock_applyRemoteOperation (h : op.opId ∉ r.seenOps) :
    (r.applyRemoteOperation op).1.clock = r.clock.merge op.clock := by
  rw [applyRemoteOperation, if_neg h, clock_log]

theorem opLog_applyRemoteOperation (h : op.opId ∉ r.seenOps) :
    (r.applyRemoteOperation op).1.opLog = r.opLog ++ [op] := by
  rw [applyRemoteOperation, if_neg h, opLog_log]

@[simp] theorem accepted_applyRemoteOperation :
    (r.applyRemoteOperation op).2 = true ↔ op.opId ∉ r.seenOps := by
  rw [applyRemoteOperation]
  split_ifs with h <;> simp [h]

/-- An operation that the clock of the peer does not cover is part of the answer. -/
theorem mem_getOperationsSince {peerClock : VectorClock} (hop : op ∈ r.opLog)
    (h : ¬ op.clock.get ≤ peerClock.get) : op ∈ r.getOperationsSince peerClock := by
  have hbefore : op.clock.happensBefore peerClock = false :=
    Bool.eq_false_iff.mpr fun hb => h (VectorClock.happensBefore_iff.mp hb).le
  have hsame : op.clock.sameClock peerClock = false :=
    Bool.eq_false_iff.mpr fun hs => h (VectorClock.get_eq_of_sameClock hs).le
  exact List.mem_filter.mpr ⟨hop, by rw [hbefore, hsame]; rfl⟩

/-- After a delivery, accepted or not, the operation counts as seen. -/
theorem mem_seenOps_applyRemoteOperation {id : Str} :
    id ∈ (r.applyRemoteOperation op).1.seenOps ↔ id = op.opId ∨ id ∈ r.seenOps := by
  by_cases h : op.opId ∈ r.seenOps
  · rw [applyRemoteOperation_of_seen h]
    refine ⟨Or.inr, ?_⟩
    rintro (rfl | hid)
    exacts [h, hid]
  · rw [applyRemoteOperation, if_neg h, mem_seenOps_log]

theorem replay_append (r : CRDTOrderBook P) (ops : List (Operation P)) (op : Operation P) :
    r.replay (ops ++ [op]) = ((r.replay ops).applyRemoteOperation op).1 := by
  rw [replay, List.foldl_append]
  rfl

theorem mem_seenOps_replay (r : CRDTOrderBook P) (ops : List (Operation P)) {id : Str} :
    id ∈ (r.replay ops).seenOps ↔ id ∈ r.seenOps ∨ ∃ op ∈ ops, op.opId = id := by
  induction ops using List.reverseRecOn with
  | nil => simp [replay]
  | append_singleton ops op ih =>
    rw [replay_append, mem_seenOps_applyRemoteOperation, ih]
    simp only [List.mem_append, List.mem_singleton, or_and_right, exists_or, exists_eq_left,
      @eq_comm _ id op.opId]
    rw [or_comm, or_assoc]

end Remote

end CRDTOrderBook

end Convergence
