import Convergence.OrderBook.Matching
import Convergence.Crdt.CrdtOrderBook

/-!
# What a call does to a replica

The four calls that change a replica, and what each leaves behind: nothing, a clock that has
advanced, a new operation stamped with the advanced clock, or a remote operation with its clock
merged (`CRDTOrderBook.Next`). A market order is always of the second kind: an order never leaves
`orders_`, so `has_order` holds of every filled order and nothing is logged
(`CRDTOrderBook.localMarketOrder_eq`).

## Main definitions

* `Call`, `Call.run`, `Call.IsLocal`: the calls as labels.
* `CRDTOrderBook.WellFormed`: the log, the seen ids and the orders agree.
* `Call.Issues`: the operation that a local call logs.
* `CRDTOrderBook.Next`.

## Main results

* `CRDTOrderBook.WellFormed.run`, `CRDTOrderBook.WellFormed.next`.
* `CRDTOrderBook.localMarketOrder_eq`.
-/

namespace Convergence

variable {P : Type*}

/-- The calls that change a replica. -/
inductive Call (P : Type*)
  | addOrder (side : Side) (price : P) (quantity : ℤ) (oid opId : Str)
  | cancelOrder (orderId opId : Str) (u : Uninit P)
  | marketOrder (side : Side) (quantity : ℤ) (gen : ℕ → Str × Uninit P)
  | applyRemote (op : Operation P)

/-- The operation adds an order. -/
def Operation.IsAdd (op : Operation P) : Prop := op.type = OpType.addOrder

/-- The operation cancels an order. -/
def Operation.IsCancel (op : Operation P) : Prop := op.type = OpType.cancelOrder

instance (op : Operation P) : Decidable op.IsAdd := inferInstanceAs (Decidable (_ = _))

instance (op : Operation P) : Decidable op.IsCancel := inferInstanceAs (Decidable (_ = _))

theorem Operation.IsCancel.not_isAdd {op : Operation P} (h : op.IsCancel) : ¬ op.IsAdd := by
  rw [IsAdd, h]
  decide

variable [LinearOrder P]

theorem OrderBook.applyOperation_add (b : OrderBook P) {op : Operation P} (h : op.IsAdd) :
    b.applyOperation op = b.insertReplicatedOrder op.order := if_pos h

theorem OrderBook.applyOperation_cancel (b : OrderBook P) {op : Operation P} (h : op.IsCancel) :
    b.applyOperation op = b.applyReplicatedCancel op.cancelOrderId :=
  (if_neg h.not_isAdd).trans (if_pos h)

theorem OrderBook.applyOperation_other (b : OrderBook P) {op : Operation P} (ha : ¬ op.IsAdd)
    (hc : ¬ op.IsCancel) : b.applyOperation op = b :=
  (if_neg ha).trans (if_neg hc)

theorem OrderBook.applyOperation_addOperation (b : OrderBook P) (r : CRDTOrderBook P) (o : Order P)
    (opId : Str) : b.applyOperation (r.addOperation o opId) = b.insertReplicatedOrder o :=
  b.applyOperation_add rfl

theorem OrderBook.applyOperation_cancelOperation (b : OrderBook P) (r : CRDTOrderBook P)
    (id opId : Str) (u : Uninit P) :
    b.applyOperation (r.cancelOperation id opId u) = b.applyReplicatedCancel id :=
  b.applyOperation_cancel rfl

/-- The state after a call. -/
def Call.run (r : CRDTOrderBook P) : Call P → CRDTOrderBook P
  | addOrder side price quantity oid opId => (r.localAddOrder side price quantity oid opId).1
  | cancelOrder orderId opId u => (r.localCancelOrder orderId opId u).1
  | marketOrder side quantity gen => (r.localMarketOrder side quantity gen).1
  | applyRemote op => (r.applyRemoteOperation op).1

/-- The call comes from a client of the node. -/
def Call.IsLocal : Call P → Prop
  | applyRemote _ => False
  | _ => True

/-- `op` is the operation that the call logs when it logs one of its own. -/
def Call.Issues (r : CRDTOrderBook P) (op : Operation P) : Call P → Prop
  | addOrder side price quantity oid opId =>
    op = (r.ticked r.book).addOperation (r.newOrder side price quantity oid) opId
  | cancelOrder orderId opId u => op = (r.ticked r.book).cancelOperation orderId opId u
  | _ => False

/-! ### Tables of orders under operations -/

namespace OrderBook

variable {b : OrderBook P}

theorem keyed_applyOperation (h : Keyed b.orders) (op : Operation P) :
    Keyed (b.applyOperation op).orders := by
  by_cases ha : op.IsAdd
  · rw [applyOperation_add b ha, insertReplicatedOrder]
    split_ifs
    · exact h
    · exact keyed_place h op.order
  · by_cases hc : op.IsCancel
    · rw [applyOperation_cancel b hc, applyReplicatedCancel_eq]
      exact keyed_cancelOrder h _
    · rwa [applyOperation_other b ha hc]

/-- An operation brings into the table at most the order it adds. -/
theorem mem_orders_applyOperation {op : Operation P} {a : Str}
    (h : a ∈ (b.applyOperation op).orders) : a ∈ b.orders ∨ op.IsAdd ∧ op.order.orderId = a := by
  by_cases ha : op.IsAdd
  · rw [applyOperation_add b ha, insertReplicatedOrder] at h
    split_ifs at h
    · exact Or.inl h
    · rw [orders_place, AList.mem_insert] at h
      exact h.symm.imp_right fun heq => ⟨ha, heq.symm⟩
  · by_cases hc : op.IsCancel
    · rw [applyOperation_cancel b hc, applyReplicatedCancel_eq, mem_orders_cancelOrder] at h
      exact Or.inl h
    · rw [applyOperation_other b ha hc] at h
      exact Or.inl h

end OrderBook

namespace CRDTOrderBook

/-! ### Market orders log nothing -/

theorem logFills_of_mem {r : CRDTOrderBook P} (gen : ℕ → Str × Uninit P) {fills : List (Fill P)}
    (h : ∀ f ∈ fills, f.orderId ∈ r.book.orders) : r.logFills gen fills = r := by
  induction fills with
  | nil => rfl
  | cons f fills ih =>
    rw [logFills, OrderBook.hasOrder, decide_eq_true (h f List.mem_cons_self), if_pos rfl]
    exact ih fun f' hf' => h f' (List.mem_cons_of_mem _ hf')

/-- A market order advances the clock and matches. Since a filled order stays in the table, the test
for a cancellation to log always fails. -/
theorem localMarketOrder_eq {r : CRDTOrderBook P} (h : Keyed r.book.orders) (side : Side) (q : ℤ)
    (gen : ℕ → Str × Uninit P) :
    r.localMarketOrder side q gen =
      (r.ticked (r.book.matchMarketOrder side q).1, (r.book.matchMarketOrder side q).2) := by
  have hf := r.book.matchMarketOrder_follows side q
  rw [localMarketOrder]
  refine Prod.ext (logFills_of_mem gen fun f hmem => ?_) rfl
  refine (hf.mem f.orderId).mpr ?_
  rcases hf.fills h f hmem with hnil | hid
  · exact absurd hnil List.not_mem_nil
  · exact hid

/-! ### Well-formed replicas -/

/-- The seen ids are the ids in the log, and the orders are stored under their ids and come from
logged additions. -/
structure WellFormed (r : CRDTOrderBook P) : Prop where
  seen_iff : ∀ id, id ∈ r.seenOps ↔ ∃ op ∈ r.opLog, op.opId = id
  keyed : Keyed r.book.orders
  added : ∀ id ∈ r.book.orders, ∃ op ∈ r.opLog, op.IsAdd ∧ op.order.orderId = id

namespace WellFormed

variable {r : CRDTOrderBook P}

theorem new (n : Str) : (CRDTOrderBook.new n : CRDTOrderBook P).WellFormed where
  seen_iff id := by simp
  keyed id o ho := by simp [CRDTOrderBook.new, OrderBook.new] at ho
  added id hid := absurd hid (AList.notMem_empty id)

theorem ticked (h : r.WellFormed) {b : OrderBook P} (hk : Keyed b.orders)
    (hb : ∀ id, id ∈ b.orders → id ∈ r.book.orders) : (r.ticked b).WellFormed where
  seen_iff := h.seen_iff
  keyed := hk
  added id hid := h.added id (hb id hid)

/-- Logging an operation, after a change of the book that it accounts for. -/
theorem log {r' : CRDTOrderBook P} {op : Operation P} (h : r.WellFormed)
    (hlog : r'.opLog = r.opLog) (hseen : r'.seenOps = r.seenOps) (hk : Keyed r'.book.orders)
    (hb : ∀ id, id ∈ r'.book.orders → id ∈ r.book.orders ∨ op.IsAdd ∧ op.order.orderId = id) :
    (r'.log op).WellFormed where
  seen_iff id := by
    rw [mem_seenOps_log, opLog_log, hlog, hseen, h.seen_iff]
    simp only [List.mem_append, List.mem_singleton, or_and_right, exists_or, exists_eq_left,
      @eq_comm _ id op.opId]
    exact or_comm
  keyed := hk
  added id hid := by
    rw [opLog_log, hlog]
    rcases hb id hid with hid | hadd
    · obtain ⟨a, ha, had⟩ := h.added id hid
      exact ⟨a, List.mem_append_left _ ha, had⟩
    · exact ⟨op, List.mem_append_right _ List.mem_cons_self, hadd⟩

theorem localCancelOrder (h : r.WellFormed) (orderId opId : Str) (u : Uninit P) :
    (r.localCancelOrder orderId opId u).1.WellFormed := by
  by_cases hid : orderId ∈ r.book.orders
  · have hk := OrderBook.keyed_cancelOrder h.keyed orderId
    rw [localCancelOrder_of_mem hid]
    split_ifs
    · exact h.log rfl rfl hk fun a ha => Or.inl (OrderBook.mem_orders_cancelOrder.mp ha)
    · exact h.ticked hk fun a => OrderBook.mem_orders_cancelOrder.mp
  · rwa [localCancelOrder_of_notMem hid]

theorem applyRemoteOperation (h : r.WellFormed) (op : Operation P) :
    (r.applyRemoteOperation op).1.WellFormed := by
  rw [CRDTOrderBook.applyRemoteOperation]
  split_ifs
  · exact h
  · exact h.log rfl rfl (OrderBook.keyed_applyOperation h.keyed op)
      fun _ => OrderBook.mem_orders_applyOperation

/-- Every call keeps a replica well formed, whatever its arguments. -/
theorem run (h : r.WellFormed) (call : Call P) : (call.run r).WellFormed := by
  cases call with
  | addOrder side price q oid opId =>
    refine h.log rfl rfl (OrderBook.keyed_place h.keyed _) fun a ha => ?_
    change a ∈ (r.book.place _).orders at ha
    rw [OrderBook.orders_place, AList.mem_insert] at ha
    exact ha.symm.imp_right fun heq => ⟨rfl, heq.symm⟩
  | cancelOrder orderId opId u => exact h.localCancelOrder orderId opId u
  | marketOrder side q gen =>
    have hf := r.book.matchMarketOrder_follows side q
    rw [Call.run, localMarketOrder_eq h.keyed]
    exact h.ticked (hf.keyed h.keyed) fun a => (hf.mem a).mp
  | applyRemote op => exact h.applyRemoteOperation op

end WellFormed

/-! ### The four outcomes of a call -/

/-- What a call may leave of the replica `r`. -/
inductive Next (r : CRDTOrderBook P) : Call P → CRDTOrderBook P → Prop
  | same (call : Call P) : Next r call r
  | ticked (call : Call P) (book : OrderBook P) : Next r call (r.ticked book)
  | issued (call : Call P) (book : OrderBook P) (op : Operation P) (h : call.Issues r op) :
      Next r call ((r.ticked book).log op)
  | applied (op : Operation P) (h : op.opId ∉ r.seenOps) :
      Next r (.applyRemote op) (r.applyRemoteOperation op).1

theorem WellFormed.next {r : CRDTOrderBook P} (h : r.WellFormed) (call : Call P) :
    r.Next call (call.run r) := by
  cases call with
  | addOrder side price q oid opId => exact .issued _ _ _ rfl
  | cancelOrder orderId opId u =>
    rw [Call.run]
    by_cases hid : orderId ∈ r.book.orders
    · rw [localCancelOrder_of_mem hid]
      split_ifs
      · exact .issued _ _ _ rfl
      · exact .ticked _ _
    · rw [localCancelOrder_of_notMem hid]
      exact .same _
  | marketOrder side q gen =>
    rw [Call.run, localMarketOrder_eq h.keyed]
    exact .ticked _ _
  | applyRemote op =>
    by_cases hseen : op.opId ∈ r.seenOps
    · rw [Call.run, applyRemoteOperation_of_seen hseen]
      exact .same _
    · exact .applied op hseen

end CRDTOrderBook

end Convergence
