import Convergence.OrderBook.LifeCycle
import Convergence.Crdt.Calls

/-!
# What a call does to the book

A call of a replica changes its book as one call of the book does: an order enters, an order is
cancelled, or a market order is matched. Which orders may enter is a condition on the call.

## Main definitions

* `Call.Enters`: generated order ids are new, and the order that may enter satisfies a condition.
* `Call.bookOp`: the call of the book, if any, that a call of the replica makes.

## Main results

* `CRDTOrderBook.WellFormed.change_run`, `CRDTOrderBook.WellFormed.book_run`.
-/

namespace Convergence

variable {P : Type*} [LinearOrder P]

/-- The order that the call may bring into the book satisfies `E`, and its id is new to the book. -/
def Call.Enters (E : Order P → Prop) (r : CRDTOrderBook P) : Call P → Prop
  | addOrder side price quantity oid _ =>
    oid ∉ r.book.orders ∧ E (r.newOrder side price quantity oid)
  | applyRemote op => op.opId ∉ r.seenOps → op.IsAdd → op.order.orderId ∉ r.book.orders → E op.order
  | _ => True

theorem OrderBook.change_applyOperation {E : Order P → Prop} (b : OrderBook P) (op : Operation P)
    (hop : op.IsAdd → op.order.orderId ∉ b.orders → E op.order) :
    b.Change E (b.applyOperation op) [] := by
  by_cases ha : op.IsAdd
  · rw [applyOperation_add b ha]
    exact change_insertReplicatedOrder b op.order (hop ha)
  · by_cases hc : op.IsCancel
    · rw [applyOperation_cancel b hc]
      exact change_applyReplicatedCancel b _
    · rw [applyOperation_other b ha hc]
      exact .same

/-- Every call changes the book as a call of the book does. -/
theorem CRDTOrderBook.WellFormed.change_run {r : CRDTOrderBook P} (h : r.WellFormed)
    {E : Order P → Prop} {call : Call P} (hcall : call.Enters E r) :
    ∃ fills, r.book.Change E (call.run r).book fills := by
  cases call with
  | addOrder side price q oid opId =>
    exact ⟨_, .entered (r.newOrder side price q oid) hcall.1 hcall.2⟩
  | cancelOrder orderId opId u =>
    refine ⟨[], ?_⟩
    rw [Call.run]
    by_cases hid : orderId ∈ r.book.orders
    · rw [localCancelOrder_of_mem hid]
      split_ifs
      · exact OrderBook.change_cancelOrder r.book orderId
      · exact OrderBook.change_cancelOrder r.book orderId
    · rw [localCancelOrder_of_notMem hid]
      exact .same
  | marketOrder side q gen =>
    rw [Call.run, localMarketOrder_eq h.keyed]
    exact ⟨_, .matched side q⟩
  | applyRemote op =>
    refine ⟨[], ?_⟩
    rw [Call.run, CRDTOrderBook.applyRemoteOperation]
    split_ifs with hseen
    · exact .same
    · exact OrderBook.change_applyOperation r.book op (hcall hseen)

/-! ### Calls of the book -/

/-- The call of the book in the dispatch of `apply_remote_operation`. -/
def Operation.bookOp (op : Operation P) : Option (BookOp P) :=
  if op.IsAdd then some (.insertReplicatedOrder op.order)
  else if op.IsCancel then some (.applyReplicatedCancel op.cancelOrderId)
  else none

/-- The call of the book that a call of the replica makes. -/
def Call.bookOp (r : CRDTOrderBook P) : Call P → Option (BookOp P)
  | addOrder side price quantity oid _ => some (.addOrder (r.newOrder side price quantity oid))
  | cancelOrder orderId _ _ =>
    if r.book.hasOrder orderId then some (.cancelOrder orderId) else none
  | marketOrder side quantity _ => some (.matchMarketOrder side quantity)
  | applyRemote op => if op.opId ∈ r.seenOps then none else op.bookOp

/-- The book after a call, if any. -/
def OrderBook.after (b : OrderBook P) (op : Option (BookOp P)) : OrderBook P :=
  (op.map fun op => op.apply b).getD b

theorem OrderBook.after_bookOp (b : OrderBook P) (op : Operation P) :
    b.after op.bookOp = b.applyOperation op := by
  rw [Operation.bookOp]
  by_cases ha : op.IsAdd
  · rw [if_pos ha, applyOperation_add b ha]
    rfl
  · by_cases hc : op.IsCancel
    · rw [if_neg ha, if_pos hc, applyOperation_cancel b hc]
      rfl
    · rw [if_neg ha, if_neg hc, applyOperation_other b ha hc]
      rfl

theorem CRDTOrderBook.WellFormed.book_run {r : CRDTOrderBook P} (h : r.WellFormed) (call : Call P) :
    (call.run r).book = r.book.after (call.bookOp r) := by
  cases call with
  | addOrder => rfl
  | cancelOrder orderId opId u =>
    rw [Call.run, Call.bookOp]
    by_cases hid : orderId ∈ r.book.orders
    · rw [localCancelOrder_of_mem hid, OrderBook.hasOrder, decide_eq_true hid, if_pos rfl]
      split_ifs <;> rfl
    · rw [localCancelOrder_of_notMem hid, OrderBook.hasOrder, decide_eq_false hid,
        if_neg Bool.false_ne_true]
      rfl
  | marketOrder side q gen =>
    rw [Call.run, CRDTOrderBook.localMarketOrder_eq h.keyed]
    rfl
  | applyRemote op =>
    rw [Call.run, Call.bookOp]
    by_cases hseen : op.opId ∈ r.seenOps
    · rw [applyRemoteOperation_of_seen hseen, if_pos hseen]
      rfl
    · rw [book_applyRemoteOperation hseen, if_neg hseen, OrderBook.after_bookOp]

end Convergence
