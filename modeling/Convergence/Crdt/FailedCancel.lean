import Convergence.OrderBook.Removal
import Convergence.Crdt.BookChange

/-!
# Failed cancellations

`local_cancel_order` has two ways to fail. An id that the replica does not know is turned down
before anything happens. An order that it knows and that is flagged already, because it was
cancelled here or elsewhere or is used up, is turned down by the book, and by then the clock has
advanced.

The runs are those of one replica. Generated order ids are new to it; the remote operations that it
applies are arbitrary.

## Main definitions

* `callSystem`: the runs of one replica.
* `CRDTOrderBook.CancelContract`: what a client may expect of a cancellation.

## Main results

* `CRDTOrderBook.lodged_of_reachable`.
* `CRDTOrderBook.cancelContract_iff`: the contract is kept as long as the order is not flagged.
-/

namespace Convergence

open TransitionSystem

variable {P : Type*} [LinearOrder P]

/-- A generated order id is new to the replica. -/
def Call.NewOrderId (r : CRDTOrderBook P) : Call P → Prop
  | addOrder _ _ _ oid _ => oid ∉ r.book.orders
  | _ => True

/-- The runs of one replica, among arbitrary remote operations. -/
def callSystem (P : Type*) [LinearOrder P] (nodeId : Str) :
    TransitionSystem (CRDTOrderBook P) (Call P) where
  init := CRDTOrderBook.new nodeId
  enabled := Call.NewOrderId
  step r call := call.run r

namespace CRDTOrderBook

variable {r : CRDTOrderBook P}

theorem lodged_of_reachable {n : Str} (h : (callSystem P n).Reachable r) :
    r.WellFormed ∧ r.book.Lodged := by
  refine h.invariant (I := fun s => s.WellFormed ∧ s.book.Lodged) ⟨.new n, .new⟩
    fun s call _ hs hcall => ⟨hs.1.run call, ?_⟩
  have henters : call.Enters (fun _ => True) s := by
    cases call with
    | addOrder => exact ⟨hcall, trivial⟩
    | cancelOrder => trivial
    | marketOrder => trivial
    | applyRemote => exact fun _ _ _ => trivial
  obtain ⟨_, hchange⟩ := hs.1.change_run henters
  exact hchange.lodged hs.2

/-- A cancellation that fails changes nothing. One that succeeds advances the counter of the
replica, logs one operation, which carries the new clock, and takes out exactly the order. -/
structure CancelContract (r : CRDTOrderBook P) (orderId opId : Str) (u : Uninit P) : Prop where
  fails : (r.localCancelOrder orderId opId u).2 = false → (r.localCancelOrder orderId opId u).1 = r
  succeeds : (r.localCancelOrder orderId opId u).2 = true →
    (r.localCancelOrder orderId opId u).1.clock.get = VectorTime.tick r.nodeId r.clock.get ∧
    (∃ op, op.IsCancel ∧ op.cancelOrderId = orderId ∧ op.opId = opId ∧
      op.clock = (r.localCancelOrder orderId opId u).1.clock ∧
      (r.localCancelOrder orderId opId u).1.opLog = r.opLog ++ [op] ∧
      (r.localCancelOrder orderId opId u).1.seenOps = insert opId r.seenOps) ∧
    ∃ o, r.book.Loses (r.localCancelOrder orderId opId u).1.book orderId o

theorem get_clock_ticked (r : CRDTOrderBook P) (b : OrderBook P) :
    (r.ticked b).clock.get = VectorTime.tick r.nodeId r.clock.get := by
  rw [clock_ticked, VectorClock.get_tick, r.clock_owner]

/-- The clock of a replica tells whether it has advanced. -/
theorem ticked_ne (r : CRDTOrderBook P) (b : OrderBook P) : r.ticked b ≠ r := fun heq => by
  have hclock := congrArg (fun r' => r'.clock.get r.nodeId) heq
  rw [get_clock_ticked, VectorTime.tick_self] at hclock
  omega

variable {orderId opId : Str} {u : Uninit P} {o : Order P}

/-- A flagged order cannot be cancelled, but the clock advances. -/
theorem localCancelOrder_of_flagged (ho : r.book.orders.lookup orderId = some o)
    (hc : o.isCancelled = true) : r.localCancelOrder orderId opId u = (r.ticked r.book, false) := by
  rw [localCancelOrder_of_mem (mem_of_lookup ho), OrderBook.cancelOrder_of_cancelled ho hc]
  rfl

theorem localCancelOrder_of_live (ho : r.book.orders.lookup orderId = some o)
    (hc : o.isCancelled = false) : r.localCancelOrder orderId opId u =
      ((r.ticked (r.book.markCancelled orderId o)).log
        ((r.ticked (r.book.markCancelled orderId o)).cancelOperation orderId opId u), true) := by
  rw [localCancelOrder_of_mem (mem_of_lookup ho), OrderBook.cancelOrder_of_active ho hc]
  rfl

/-- **When a failed cancellation changes nothing.** In every state of every run, a cancellation does
what a client may expect if and only if it does not name an order that is flagged already. -/
theorem cancelContract_iff {n : Str} (h : (callSystem P n).Reachable r) (orderId opId : Str)
    (u : Uninit P) : r.CancelContract orderId opId u ↔
      ∀ o, r.book.orders.lookup orderId = some o → o.isCancelled = false := by
  constructor
  · intro hr o ho
    by_contra hc
    rw [Bool.not_eq_false] at hc
    have hfail := hr.fails
    rw [localCancelOrder_of_flagged ho hc] at hfail
    exact r.ticked_ne r.book (hfail rfl)
  · intro hlive
    by_cases hid : orderId ∈ r.book.orders
    · obtain ⟨o, ho⟩ := exists_lookup hid
      have hc := hlive o ho
      constructor
      · rw [localCancelOrder_of_live ho hc]
        rintro ⟨⟩
      · rw [localCancelOrder_of_live ho hc]
        refine fun _ => ⟨r.get_clock_ticked (r.book.markCancelled orderId o), ?_, o,
          (lodged_of_reachable h).2.loses ho hc⟩
        exact ⟨cancelOperation _ orderId opId u, rfl, rfl, rfl, rfl, rfl, rfl⟩
    · constructor
      · rw [localCancelOrder_of_notMem hid]
        exact fun _ => rfl
      · rw [localCancelOrder_of_notMem hid]
        rintro ⟨⟩

/-- A bid that is cancelled once. -/
def cancelledOnce : CRDTOrderBook ℤ :=
  Call.run (Call.run (.new [65]) (.addOrder Side.buy 100 4 [97] [98]))
    (.cancelOrder [97] [99] ⟨Side.buy, 0, 0, 0, 0⟩)

theorem cancelContract_iff_bid :
    (cancelledOnce.CancelContract [97] [100] ⟨Side.buy, 0, 0, 0, 0⟩ ↔
      ∀ o, cancelledOnce.book.orders.lookup [97] = some o → o.isCancelled = false) := by
  have hadd := Reachable.init (T := callSystem ℤ [65]) |>.step
    (.addOrder Side.buy 100 4 [97] [98]) (AList.notMem_empty _)
  exact cancelContract_iff (hadd.step (.cancelOrder [97] [99] ⟨Side.buy, 0, 0, 0, 0⟩) trivial) _ _ _

/-- The second cancellation of an order fails and leaves the clock advanced. -/
theorem not_cancelContract_again : (callSystem ℤ [65]).Reachable cancelledOnce ∧
    (cancelledOnce.localCancelOrder [97] [100] ⟨Side.buy, 0, 0, 0, 0⟩).2 = false ∧
    (cancelledOnce.localCancelOrder [97] [100] ⟨Side.buy, 0, 0, 0, 0⟩).1 ≠ cancelledOnce := by
  have hadd := Reachable.init (T := callSystem ℤ [65]) |>.step
    (.addOrder Side.buy 100 4 [97] [98]) (AList.notMem_empty _)
  have hflag : cancelledOnce.localCancelOrder [97] [100] ⟨Side.buy, 0, 0, 0, 0⟩ =
      (cancelledOnce.ticked cancelledOnce.book, false) :=
    localCancelOrder_of_flagged (o := ⟨[97], [65], Side.buy, 100, 4, 4, 1, true⟩) rfl rfl
  refine ⟨hadd.step (.cancelOrder [97] [99] ⟨Side.buy, 0, 0, 0, 0⟩) trivial, ?_, ?_⟩
  · rw [hflag]
  · rw [hflag]
    exact ticked_ne _ _

end CRDTOrderBook

end Convergence
