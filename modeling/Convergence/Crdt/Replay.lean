import Convergence.Crdt.Calls
import Convergence.Library.TransitionSystem

/-!
# Replaying the log

The operation log of a replica is all there is to its book: a fresh replica that is sent the log
from front to back accepts every entry and ends with the same book. Local calls change the book by
`add_order` and `cancel_order`, the replay by `insert_replicated_order` and
`apply_replicated_cancel`; the two agree because a generated order id is new, and because a call
that logs nothing leaves the book as it was. Market orders, which change the book and log nothing,
are left out.

## Main definitions

* `limitSystem`: runs of one replica without market orders, among arbitrary remote operations.
* `CRDTOrderBook.Replays`.

## Main results

* `CRDTOrderBook.Replays.log`, `CRDTOrderBook.Replays.run`.
* `CRDTOrderBook.replay_opLog_of_reachable`.
-/

namespace Convergence

open TransitionSystem

variable {P : Type*} [LinearOrder P]

/-- Generated ids are new to the replica. Remote operations are arbitrary; market orders are left
out. -/
def Call.LimitEnabled (r : CRDTOrderBook P) : Call P → Prop
  | addOrder _ _ _ oid opId => oid ∉ r.book.orders ∧ opId ∉ r.seenOps
  | cancelOrder _ opId _ => opId ∉ r.seenOps
  | marketOrder .. => False
  | applyRemote _ => True

/-- The runs of one replica made of local additions, local cancellations and remote operations. -/
def limitSystem (P : Type*) [LinearOrder P] (nodeId : Str) :
    TransitionSystem (CRDTOrderBook P) (Call P) where
  init := CRDTOrderBook.new nodeId
  enabled := Call.LimitEnabled
  step r call := call.run r

theorem OrderBook.cancelOrder_of_fail {b : OrderBook P} {id : Str}
    (h : (b.cancelOrder id).2 = false) : (b.cancelOrder id).1 = b := by
  obtain hcancel | ⟨o, -, -, hcancel⟩ := cancelOrder_cases b id
  · rw [hcancel]
  · rw [hcancel] at h
    cases h

namespace CRDTOrderBook

/-- No id occurs twice in the log, and replaying the log gives the book. -/
structure Replays (r : CRDTOrderBook P) : Prop where
  nodup : (r.opLog.map Operation.opId).Nodup
  book : ∀ n, ((new n : CRDTOrderBook P).replay r.opLog).book = r.book

namespace Replays

variable {r : CRDTOrderBook P}

theorem new (n : Str) : (CRDTOrderBook.new n : CRDTOrderBook P).Replays where
  nodup := List.nodup_nil
  book _ := rfl

/-- Logging a new operation together with its effect on the book. -/
theorem log (h : r.Replays) (hr : r.WellFormed) {r' : CRDTOrderBook P} {op : Operation P}
    (hlog : r'.opLog = r.opLog) (hid : op.opId ∉ r.seenOps)
    (hbook : r'.book = r.book.applyOperation op) : (r'.log op).Replays where
  nodup := by
    rw [opLog_log, hlog, List.map_append, List.map_singleton]
    refine h.nodup.append (List.nodup_singleton _) fun id hmem hop => ?_
    obtain rfl := List.mem_singleton.mp hop
    exact hid ((hr.seen_iff _).mpr (List.mem_map.mp hmem))
  book n := by
    have hnew : op.opId ∉ ((CRDTOrderBook.new n : CRDTOrderBook P).replay r.opLog).seenOps := by
      rw [mem_seenOps_replay, ← hr.seen_iff]
      simpa using hid
    rw [opLog_log, hlog, replay_append, book_applyRemoteOperation hnew, h.book n, book_log, hbook]

theorem ticked (h : r.Replays) {b : OrderBook P} (hb : b = r.book) : (r.ticked b).Replays :=
  hb ▸ ⟨h.nodup, h.book⟩

/-- Every call but a market order keeps the log and the book in step. -/
theorem run (h : r.Replays) (hr : r.WellFormed) (call : Call P) (hcall : call.LimitEnabled r) :
    (call.run r).Replays := by
  cases call with
  | addOrder side price q oid opId =>
    refine h.log hr rfl hcall.2 ?_
    rw [OrderBook.applyOperation_addOperation]
    exact (if_neg hcall.1).symm
  | cancelOrder orderId opId u =>
    rw [Call.run]
    by_cases hid : orderId ∈ r.book.orders
    · rw [localCancelOrder_of_mem hid]
      split_ifs with hc
      · refine h.log hr rfl hcall ?_
        rw [OrderBook.applyOperation_cancelOperation]
        exact (OrderBook.applyReplicatedCancel_eq _ _).symm
      · exact h.ticked (OrderBook.cancelOrder_of_fail (Bool.eq_false_iff.mpr hc))
    · rwa [localCancelOrder_of_notMem hid]
  | marketOrder => exact hcall.elim
  | applyRemote op =>
    rw [Call.run, applyRemoteOperation]
    split_ifs with hseen
    · exact h
    · exact h.log hr rfl hseen rfl

/-- A fresh replica accepts every entry of the log. -/
theorem accepted (h : r.Replays) (n : Str) {before after : List (Operation P)} {op : Operation P}
    (hlog : r.opLog = before ++ op :: after) :
    (((CRDTOrderBook.new n).replay before).applyRemoteOperation op).2 = true := by
  have hnd := h.nodup
  rw [hlog, List.map_append, List.map_cons] at hnd
  rw [accepted_applyRemoteOperation, mem_seenOps_replay]
  rintro (hid | ⟨a, ha, hid⟩)
  · simp at hid
  · exact (List.nodup_append'.mp hnd).2.2 (List.mem_map.mpr ⟨a, ha, hid⟩) List.mem_cons_self

end Replays

theorem replays_of_reachable {n : Str} {r : CRDTOrderBook P} (h : (limitSystem P n).Reachable r) :
    r.WellFormed ∧ r.Replays :=
  h.invariant (I := fun s => s.WellFormed ∧ s.Replays) ⟨.new n, .new n⟩ fun _ call _ hs hcall =>
    ⟨hs.1.run call, hs.2.run hs.1 call hcall⟩

/-- **The log reproduces the book.** After any run without market orders, a fresh replica accepts
every entry of the log and ends with the same book. -/
theorem replay_opLog_of_reachable {n m : Str} {r : CRDTOrderBook P}
    (h : (limitSystem P n).Reachable r) :
    (∀ before op after, r.opLog = before ++ op :: after →
      (((new m).replay before).applyRemoteOperation op).2 = true) ∧
      ((new m).replay r.opLog).book = r.book := by
  have hinv := replays_of_reachable h
  exact ⟨fun _ _ _ hlog => hinv.2.accepted m hlog, hinv.2.book m⟩

/-- An order added here, and cancelled by a remote operation that comes twice. -/
theorem replay_opLog_add_cancel_cancel :
    let r : CRDTOrderBook ℤ := ((new [49]).localAddOrder Side.buy 100 5 [97] [1]).1
    let c : Operation ℤ :=
      ⟨OpType.cancelOrder, Order.uninit ⟨Side.buy, 0, 0, 0, 0⟩, [97], [50], VectorClock.new [50],
        [2]⟩
    ((new [51]).replay ((r.applyRemoteOperation c).1.applyRemoteOperation c).1.opLog).book =
      ((r.applyRemoteOperation c).1.applyRemoteOperation c).1.book := by
  intro r c
  have hadd := Reachable.init (T := limitSystem ℤ [49]) |>.step
    (.addOrder Side.buy 100 5 [97] [1]) ⟨AList.notMem_empty _, Finset.notMem_empty _⟩
  have hcancel := (hadd.step (.applyRemote c) trivial).step (.applyRemote c) trivial
  exact (replay_opLog_of_reachable hcancel).2

end CRDTOrderBook

end Convergence
