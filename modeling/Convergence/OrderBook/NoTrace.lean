import Convergence.OrderBook.Quotes
import Convergence.OrderBook.ShownLevels

/-!
# A cancelled order leaves no trace

Two runs of one book with the same calls, one of them around the placement and the cancellation of
one more order. In between, the books shadow each other: the queues of the one are the queues of the
other without the order (`OrderBook.Shadows`). Levels are determined by their queues, so once the
order is cancelled both books have the same levels.

The calls in between place and cancel orders of any quantity and with any flag. What the argument
rests on is that levels show what is in their queues (`OrderBook.Shown`); market orders keep this
only for orders that entered without a flag, and `add_order` only under an id that is not queued.

## Main definitions

* `LimitCall`, `LimitCall.run`, `runCalls`: sequences of calls and what they return.
* `OrderBook.Shadows`, `OrderBook.LeavesNoTrace`.

## Main results

* `OrderBook.Shadows.run`, `OrderBook.Shadows.runCalls`: calls on other ids keep the shadow.
* `OrderBook.leavesNoTrace_of_reachable`.
-/

namespace Convergence

open TransitionSystem

variable {P : Type*}

/-! ### Sequences of calls -/

/-- The calls that place and cancel orders. -/
inductive LimitCall (P : Type*)
  | addOrder (order : Order P)
  | insertReplicatedOrder (order : Order P)
  | cancelOrder (orderId : Str)
  | applyReplicatedCancel (orderId : Str)

/-- What such a call returns. -/
inductive Returned
  | orderId (id : Str)
  | success (b : Bool)
  | nothing

/-- The id that the call is about. -/
def LimitCall.target : LimitCall P → Str
  | addOrder order => order.orderId
  | insertReplicatedOrder order => order.orderId
  | cancelOrder orderId => orderId
  | applyReplicatedCancel orderId => orderId

variable [LinearOrder P]

/-- The book after a call, and what the call returns. -/
def LimitCall.run (b : OrderBook P) : LimitCall P → OrderBook P × Returned
  | addOrder order => ((b.addOrder order).1, .orderId (b.addOrder order).2)
  | insertReplicatedOrder order => (b.insertReplicatedOrder order, .nothing)
  | cancelOrder orderId => ((b.cancelOrder orderId).1, .success (b.cancelOrder orderId).2)
  | applyReplicatedCancel orderId => (b.applyReplicatedCancel orderId, .nothing)

/-- `add_order` is called with an id that is new to the book. -/
def LimitCall.Fresh (b : OrderBook P) : LimitCall P → Prop
  | addOrder order => order.orderId ∉ b.orders
  | _ => True

/-- The book after a sequence of calls, and what they return. -/
def runCalls (b : OrderBook P) : List (LimitCall P) → OrderBook P × List Returned
  | [] => (b, [])
  | call :: calls =>
    ((runCalls (call.run b).1 calls).1, (call.run b).2 :: (runCalls (call.run b).1 calls).2)

/-- Every `add_order` in the sequence gets a new id. -/
def FreshCalls (b : OrderBook P) : List (LimitCall P) → Prop
  | [] => True
  | call :: calls => call.Fresh b ∧ FreshCalls (call.run b).1 calls

namespace OrderBook

variable {b b' : OrderBook P} {o x : Order P} {id : Str}

/-! ### Shadows -/

/-- `b'` is `b` without the order `o`: its queues lack the id of `o`, and so does its table. -/
structure Shadows (o : Order P) (b b' : OrderBook P) : Prop where
  shown : b.Shown
  shown' : b'.Shown
  stored : b.orders.lookup o.orderId = some o
  absent : o.orderId ∉ b'.orders
  others : ∀ a, a ≠ o.orderId → b.orders.lookup a = b'.orders.lookup a
  bids : ∀ p, queueAt b'.bids p = (queueAt b.bids p).erase o.orderId
  asks : ∀ p, queueAt b'.asks p = (queueAt b.asks p).erase o.orderId

/-- `b` is `b'`, except that the table also has the order `o`, flagged. -/
structure OnlyTraceIs (o : Order P) (b b' : OrderBook P) : Prop where
  bids : b.bids = b'.bids
  asks : b.asks = b'.asks
  entry : b.orders.lookup o.orderId = some { o with isCancelled := true }
  absent : b'.orders.lookup o.orderId = none
  others : ∀ a, a ≠ o.orderId → b.orders.lookup a = b'.orders.lookup a

omit [LinearOrder P] in
private theorem erase_concat_of_ne (queue : List Str) {a id : Str} (hne : a ≠ id) :
    (queue ++ [a]).erase id = queue.erase id ++ [a] := by
  by_cases hid : id ∈ queue
  · rw [List.erase_append_left _ hid]
  · rw [List.erase_append_right _ hid, List.erase_of_not_mem hid,
      List.erase_of_not_mem (by simpa using hne.symm)]

omit [LinearOrder P] in
private theorem erase_concat_self {queue : List Str} {id : Str} (hid : id ∉ queue) :
    (queue ++ [id]).erase id = queue := by
  rw [List.erase_append_right _ hid, List.erase_cons_head, List.append_nil]

theorem Shown.shadows_place (hb : b.Shown) (hid : o.orderId ∉ b.orders) :
    Shadows o (b.place o) b where
  shown := hb.place (hb.not_queued hid)
  shown' := hb
  stored := by rw [orders_place, AList.lookup_insert]
  absent := hid
  others a ha := by rw [orders_place, AList.lookup_insert_ne ha]
  bids p := by
    have hnot := hb.bids.notMem_queueAt hid p
    rw [queueAt_bids_place]
    split_ifs
    exacts [(erase_concat_self hnot).symm, (List.erase_of_not_mem hnot).symm]
  asks p := by
    have hnot := hb.asks.notMem_queueAt hid p
    rw [queueAt_asks_place]
    split_ifs
    exacts [(erase_concat_self hnot).symm, (List.erase_of_not_mem hnot).symm]

namespace Shadows

theorem mem_iff (h : Shadows o b b') (hne : id ≠ o.orderId) : id ∈ b.orders ↔ id ∈ b'.orders := by
  rw [← AList.lookup_isSome, ← AList.lookup_isSome, h.others id hne]

/-- Another order is placed in both books. -/
theorem place (h : Shadows o b b') (hne : x.orderId ≠ o.orderId) (hx : x.orderId ∉ b'.orders) :
    Shadows o (b.place x) (b'.place x) where
  shown := h.shown.place (h.shown.not_queued fun hmem => hx ((h.mem_iff hne).mp hmem))
  shown' := h.shown'.place (h.shown'.not_queued hx)
  stored := by rw [orders_place, AList.lookup_insert_ne hne.symm, h.stored]
  absent hmem := by
    rw [orders_place, AList.mem_insert] at hmem
    exact hmem.elim hne.symm h.absent
  others a ha := by
    rw [orders_place, orders_place, lookup_insert_eq, lookup_insert_eq, h.others a ha]
  bids p := by
    rw [queueAt_bids_place, queueAt_bids_place]
    split_ifs
    · rw [erase_concat_of_ne _ hne, h.bids]
    · exact h.bids p
  asks p := by
    rw [queueAt_asks_place, queueAt_asks_place]
    split_ifs
    · rw [erase_concat_of_ne _ hne, h.asks]
    · exact h.asks p

/-- Another order is cancelled in both books. -/
theorem markCancelled (h : Shadows o b b') (hne : id ≠ o.orderId)
    (hx : b'.orders.lookup id = some x) (hc : x.isCancelled = false) :
    Shadows o (b.markCancelled id x) (b'.markCancelled id x) where
  shown := h.shown.markCancelled ((h.others id hne).trans hx) hc
  shown' := h.shown'.markCancelled hx hc
  stored := by rw [orders_markCancelled, AList.lookup_insert_ne hne.symm, h.stored]
  absent hmem := by
    rw [orders_markCancelled, AList.mem_insert] at hmem
    exact hmem.elim hne.symm h.absent
  others a ha := by
    rw [orders_markCancelled, orders_markCancelled, lookup_insert_eq, lookup_insert_eq,
      h.others a ha]
  bids p := by
    rw [queueAt_bids_markCancelled, queueAt_bids_markCancelled]
    split_ifs
    · rw [h.bids, List.erase_comm]
    · exact h.bids p
  asks p := by
    rw [queueAt_asks_markCancelled, queueAt_asks_markCancelled]
    split_ifs
    · rw [h.asks, List.erase_comm]
    · exact h.asks p

theorem insertReplicatedOrder (h : Shadows o b b') (hne : x.orderId ≠ o.orderId) :
    Shadows o (b.insertReplicatedOrder x) (b'.insertReplicatedOrder x) := by
  rw [OrderBook.insertReplicatedOrder, OrderBook.insertReplicatedOrder]
  by_cases hx : x.orderId ∈ b'.orders
  · rwa [if_pos hx, if_pos ((h.mem_iff hne).mpr hx)]
  · rw [if_neg hx, if_neg fun hmem => hx ((h.mem_iff hne).mp hmem)]
    exact h.place hne hx

theorem cancelOrder (h : Shadows o b b') (hne : id ≠ o.orderId) :
    Shadows o (b.cancelOrder id).1 (b'.cancelOrder id).1 ∧
      (b.cancelOrder id).2 = (b'.cancelOrder id).2 := by
  have heq := h.others id hne
  cases hx : b'.orders.lookup id with
  | none =>
    rw [cancelOrder_of_notMem hx, cancelOrder_of_notMem (heq.trans hx)]
    exact ⟨h, rfl⟩
  | some x =>
    cases hc : x.isCancelled with
    | true =>
      rw [cancelOrder_of_cancelled hx hc, cancelOrder_of_cancelled (heq.trans hx) hc]
      exact ⟨h, rfl⟩
    | false =>
      rw [cancelOrder_of_active hx hc, cancelOrder_of_active (heq.trans hx) hc]
      exact ⟨h.markCancelled hne hx hc, rfl⟩

/-- A call on another id does the same to both books and returns the same. -/
theorem run (h : Shadows o b b') (call : LimitCall P) (hne : call.target ≠ o.orderId)
    (hfresh : call.Fresh b') :
    Shadows o (call.run b).1 (call.run b').1 ∧ (call.run b).2 = (call.run b').2 := by
  cases call with
  | addOrder x => exact ⟨h.place hne hfresh, rfl⟩
  | insertReplicatedOrder x => exact ⟨h.insertReplicatedOrder hne, rfl⟩
  | cancelOrder a =>
    obtain ⟨hbooks, hret⟩ := h.cancelOrder hne
    exact ⟨hbooks, congrArg Returned.success hret⟩
  | applyReplicatedCancel a =>
    rw [LimitCall.run, LimitCall.run, applyReplicatedCancel_eq, applyReplicatedCancel_eq]
    exact ⟨(h.cancelOrder hne).1, rfl⟩

theorem runCalls {calls : List (LimitCall P)} (h : Shadows o b b')
    (hne : ∀ call ∈ calls, call.target ≠ o.orderId) (hfresh : FreshCalls b' calls) :
    Shadows o (runCalls b calls).1 (runCalls b' calls).1 ∧
      (runCalls b calls).2 = (runCalls b' calls).2 := by
  induction calls generalizing b b' with
  | nil => exact ⟨h, rfl⟩
  | cons call calls ih =>
    obtain ⟨hbooks, hret⟩ := h.run call (hne call List.mem_cons_self) hfresh.1
    obtain ⟨hrest, hrets⟩ := ih hbooks (fun c hc => hne c (List.mem_cons_of_mem _ hc)) hfresh.2
    exact ⟨hrest, congrArg₂ List.cons hret hrets⟩

/-- Cancelling the order makes the shadow the whole. -/
theorem onlyTraceIs (h : Shadows o b b') (hc : o.isCancelled = false) :
    OnlyTraceIs o (b.markCancelled o.orderId o) b' := by
  have hshown := h.shown.markCancelled h.stored hc
  have htable (a : Str) (ha : a ≠ o.orderId) :
      (b.markCancelled o.orderId o).orders.lookup a = b'.orders.lookup a := by
    rw [orders_markCancelled, AList.lookup_insert_ne ha, h.others a ha]
  have hne (queue : List Str) (hq : o.orderId ∉ queue) (a : Str) (ha : a ∈ queue) :
      (b.markCancelled o.orderId o).orders.lookup a = b'.orders.lookup a :=
    htable a fun heq => hq (heq ▸ ha)
  have hbids (p : P) : queueAt (b.markCancelled o.orderId o).bids p = queueAt b'.bids p := by
    rw [queueAt_bids_markCancelled, h.bids]
    split_ifs with hown
    · rfl
    · have hnot := h.shown.bids.notMem_queueAt_of_lookup h.stored hown
      exact (List.erase_of_not_mem hnot).symm
  have hasks (p : P) : queueAt (b.markCancelled o.orderId o).asks p = queueAt b'.asks p := by
    rw [queueAt_asks_markCancelled, h.asks]
    split_ifs with hown
    · rfl
    · have hnot := h.shown.asks.notMem_queueAt_of_lookup h.stored hown
      exact (List.erase_of_not_mem hnot).symm
  refine
    { bids := (hshown.bids_represent.congr_queues hbids).unique
        (h.shown'.bids_represent.congr_orders fun p =>
          hne _ (h.shown'.bids.notMem_queueAt h.absent p))
      asks := (hshown.asks_represent.congr_queues hasks).unique
        (h.shown'.asks_represent.congr_orders fun p =>
          hne _ (h.shown'.asks.notMem_queueAt h.absent p))
      entry := by rw [orders_markCancelled, AList.lookup_insert]
      absent := AList.lookup_eq_none.mpr h.absent
      others := htable }

end Shadows

/-- A run with the order `o` placed first and cancelled last, against the run without it. The calls
in between and the cancellation return what they should, and the order leaves its entry only. -/
structure LeavesNoTrace (b : OrderBook P) (o : Order P) (calls : List (LimitCall P)) : Prop where
  added : (runCalls (b.addOrder o).1 calls).2 = (runCalls b calls).2
  cancelled : OnlyTraceIs o ((runCalls (b.addOrder o).1 calls).1.cancelOrder o.orderId).1
    (runCalls b calls).1
  inserted : (runCalls (b.insertReplicatedOrder o) calls).2 = (runCalls b calls).2
  applied : OnlyTraceIs o
    ((runCalls (b.insertReplicatedOrder o) calls).1.applyReplicatedCancel o.orderId)
    (runCalls b calls).1

theorem Shown.leavesNoTrace (hb : b.Shown) (hid : o.orderId ∉ b.orders)
    (hc : o.isCancelled = false) {calls : List (LimitCall P)}
    (hne : ∀ call ∈ calls, call.target ≠ o.orderId) (hfresh : FreshCalls b calls) :
    b.LeavesNoTrace o calls := by
  obtain ⟨hshadow, hret⟩ := (hb.shadows_place hid).runCalls hne hfresh
  have htrace := hshadow.onlyTraceIs hc
  have hcancel : ((Convergence.runCalls (b.place o) calls).1.cancelOrder o.orderId).1 =
      (Convergence.runCalls (b.place o) calls).1.markCancelled o.orderId o := by
    rw [cancelOrder_of_active hshadow.stored hc]
  have hinsert : b.insertReplicatedOrder o = b.place o := if_neg hid
  refine ⟨hret, hcancel ▸ htrace, ?_, ?_⟩
  · rwa [hinsert]
  · rwa [hinsert, applyReplicatedCancel_eq, hcancel]

/-- **A cancelled order leaves no trace in the levels.** -/
theorem leavesNoTrace_of_reachable (h : (unflaggedSystem P).Reachable b)
    (hid : o.orderId ∉ b.orders) (hc : o.isCancelled = false) {calls : List (LimitCall P)}
    (hne : ∀ call ∈ calls, call.target ≠ o.orderId) (hfresh : FreshCalls b calls) :
    b.LeavesNoTrace o calls :=
  (clear_of_reachable h).leavesNoTrace hid hc hne hfresh

/-- Another bid at the price is placed and cancelled in between. -/
theorem leavesNoTrace_two_bids : (OrderBook.new : OrderBook ℤ).LeavesNoTrace
    ⟨[97], [65], Side.buy, 100, 4, 4, 1, false⟩
    [.addOrder ⟨[98], [65], Side.buy, 100, 2, 2, 2, false⟩, .cancelOrder [98]] := by
  refine leavesNoTrace_of_reachable .init (AList.notMem_empty _) rfl (fun call hcall => ?_)
    ⟨AList.notMem_empty _, trivial, trivial⟩
  rcases List.mem_cons.mp hcall with rfl | hcall
  · simp [LimitCall.target]
  · rw [List.mem_singleton.mp hcall]
    simp [LimitCall.target]

/-- A book that a flagged bid has gone through: the market order drops it from the queue and leaves
its quantity in the total of the level. -/
def flaggedPassed : TradedBook ℤ :=
  let t := (tradeSystem ℤ).step (tradeSystem ℤ).init
    (.insertReplicatedOrder ⟨[120], [66], Side.buy, 100, 5, 5, 1, true⟩)
  let t' := (tradeSystem ℤ).step t (.addOrder ⟨[121], [65], Side.buy, 100, 3, 3, 2, false⟩)
  (tradeSystem ℤ).step t' (.matchMarketOrder Side.sell 1)

theorem reachable_flaggedPassed : (tradeSystem ℤ).Reachable flaggedPassed := by
  have hflagged := Reachable.init (T := tradeSystem ℤ) |>.step
    (.insertReplicatedOrder ⟨[120], [66], Side.buy, 100, 5, 5, 1, true⟩)
    ⟨rfl, by decide⟩
  have hlive := hflagged.step (.addOrder ⟨[121], [65], Side.buy, 100, 3, 3, 2, false⟩)
    ⟨fun hmem => ?_, rfl, by decide⟩
  · exact hlive.step (.matchMarketOrder Side.sell 1) trivial
  · rcases (AList.mem_insert _).mp hmem with heq | hnone
    · simp at heq
    · exact absurd hnone (AList.notMem_empty _)

/-- A book in which `add_order` has overwritten a queued bid: the level keeps the quantity of the
bid that is gone, a cancellation takes one of the two places of its id, and the market order drops
the other. -/
def replacedPassed : OrderBook ℤ :=
  let b := (OrderBook.new.addOrder ⟨[97], [65], Side.buy, 100, 4, 4, 1, false⟩).1
  let b := (b.addOrder ⟨[97], [65], Side.buy, 100, 2, 2, 2, false⟩).1
  let b := (b.addOrder ⟨[98], [65], Side.buy, 100, 3, 3, 3, false⟩).1
  ((b.cancelOrder [97]).1.matchMarketOrder Side.sell 1).1

theorem reachable_replacedPassed : (unfilledSystem ℤ).Reachable replacedPassed := by
  have hfirst := Reachable.init (T := unfilledSystem ℤ) |>.step
    (.addOrder ⟨[97], [65], Side.buy, 100, 4, 4, 1, false⟩) ⟨rfl, by decide⟩
  have hagain := hfirst.step (.addOrder ⟨[97], [65], Side.buy, 100, 2, 2, 2, false⟩)
    ⟨rfl, by decide⟩
  have hother := hagain.step (.addOrder ⟨[98], [65], Side.buy, 100, 3, 3, 3, false⟩)
    ⟨rfl, by decide⟩
  exact (hother.step (.cancelOrder [97]) trivial).step (.matchMarketOrder Side.sell 1) trivial

/-- An order that is placed with its flag set cannot be cancelled, and its level stays. Where a
flagged order was placed before, or an order under an id that was still queued, an order without a
flag can leave a trace: it keeps alive a level with a wrong total, which the run without it starts
afresh. -/
theorem not_leavesNoTrace_flagged :
    ¬ (OrderBook.new : OrderBook ℤ).LeavesNoTrace ⟨[97], [65], Side.buy, 100, 4, 4, 1, true⟩ [] ∧
    ((tradeSystem ℤ).Reachable flaggedPassed ∧
      ¬ flaggedPassed.book.LeavesNoTrace ⟨[97], [65], Side.buy, 100, 1, 1, 3, false⟩
        [.cancelOrder [121], .addOrder ⟨[122], [65], Side.buy, 100, 4, 4, 4, false⟩]) ∧
    (unfilledSystem ℤ).Reachable replacedPassed ∧
      ¬ replacedPassed.LeavesNoTrace ⟨[111], [65], Side.buy, 100, 1, 1, 4, false⟩
        [.cancelOrder [98], .addOrder ⟨[99], [65], Side.buy, 100, 4, 4, 5, false⟩] := by
  refine ⟨fun h => ?_, ⟨reachable_flaggedPassed, fun h => ?_⟩, reachable_replacedPassed,
    fun h => ?_⟩
  · have hbids := congrArg (fun m => m.entries.length) h.cancelled.bids
    exact absurd hbids Nat.one_ne_zero
  · have hbids : ([9] : List ℤ) = [4] :=
      congrArg (fun m => m.entries.map fun e => e.2.totalQuantity) h.cancelled.bids
    simp at hbids
  · have hbids : ([8] : List ℤ) = [4] :=
      congrArg (fun m => m.entries.map fun e => e.2.totalQuantity) h.cancelled.bids
    simp at hbids

end OrderBook

end Convergence
