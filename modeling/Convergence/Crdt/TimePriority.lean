import Convergence.Crdt.Delivery
import Convergence.Crdt.Replay

/-!
# Time priority across replicas

`Order::operator<` ranks orders by timestamp, node id and order id, the same on every replica, but
nothing sorts by it: a new order goes to the back of its queue, wherever it comes from. So after any
run without market orders a queue lists the orders of its level in the order in which their
additions reached the replica, and two replicas agree with the ranking, and with each other, exactly
when the additions came in by rank.

## Main definitions

* `OrderBook.TimeOrdered`: every queue lists its orders by rank.
* `restingAt`: the additions, as they came in, of the orders that rest at a price.
* `ArrivedByRank`: at every price, additions came in by rank.

## Main results

* `queueAt_replay`: a queue is the additions as they came in.
* `CRDTOrderBook.timePriority_iff`.
-/

namespace Convergence

open TransitionSystem

variable {P : Type*}

/-! ### The additions that rest at a price -/

section RestingAt

variable [DecidableEq P]

/-- The additions in `ops` of orders of the side `own` at the price `p` not cancelled in `ops`. -/
def restingAt (ops : List (Operation P)) (own : Side → Prop) [DecidablePred own] (p : P) :
    List (Operation P) :=
  ops.filter fun a => a.IsAdd ∧ own a.order.side ∧ a.order.price = p ∧
    ∀ k ∈ ops, k.IsCancel → k.cancelOrderId ≠ a.order.orderId

variable {ops : List (Operation P)} {op a : Operation P} {own : Side → Prop} [DecidablePred own]
  {p : P}

theorem mem_restingAt : a ∈ restingAt ops own p ↔ a ∈ ops ∧ a.IsAdd ∧ own a.order.side ∧
    a.order.price = p ∧ ∀ k ∈ ops, k.IsCancel → k.cancelOrderId ≠ a.order.orderId := by
  rw [restingAt, List.mem_filter, decide_eq_true_iff]

/-- An addition that nothing has cancelled yet comes last. -/
theorem restingAt_append_add (hadd : op.IsAdd)
    (hfree : ∀ k ∈ ops, k.IsCancel → k.cancelOrderId ≠ op.order.orderId) :
    restingAt (ops ++ [op]) own p =
      if own op.order.side ∧ p = op.order.price then restingAt ops own p ++ [op]
      else restingAt ops own p := by
  have hcancel (a : Operation P) :
      (∀ k ∈ ops ++ [op], k.IsCancel → k.cancelOrderId ≠ a.order.orderId) ↔
        ∀ k ∈ ops, k.IsCancel → k.cancelOrderId ≠ a.order.orderId := by
    refine ⟨fun h k hk => h k (List.mem_append_left _ hk), fun h k hk hc => ?_⟩
    rcases List.mem_append.mp hk with hk | hk
    · exact h k hk hc
    · exact absurd (List.mem_singleton.mp hk ▸ hadd) hc.not_isAdd
  simp only [restingAt, hcancel, List.filter_append, List.filter_singleton]
  split_ifs with hlevel
  · rw [decide_eq_true ⟨hadd, hlevel.1, hlevel.2.symm, hfree⟩]
    rfl
  · rw [decide_eq_false fun h => hlevel ⟨h.2.1, h.2.2.1.symm⟩]
    exact List.append_nil _

/-- A cancellation takes its order away. -/
theorem restingAt_append_cancel (hc : op.IsCancel) :
    restingAt (ops ++ [op]) own p =
      (restingAt ops own p).filter fun a => a.order.orderId != op.cancelOrderId := by
  rw [restingAt, restingAt, List.filter_append, List.filter_filter, List.filter_singleton,
    decide_eq_false fun h => hc.not_isAdd h.1]
  refine (List.append_nil _).trans (List.filter_congr fun a _ => ?_)
  rw [Bool.eq_iff_iff, Bool.and_eq_true, decide_eq_true_iff, decide_eq_true_iff, bne_iff_ne]
  simp only [List.mem_append, List.mem_singleton, or_imp, forall_and, forall_eq, hc, true_imp_iff]
  rw [ne_comm (a := a.order.orderId)]
  tauto

end RestingAt

/-- The additions of orders that rest at a price came in by rank. -/
structure ArrivedByRank [DecidableEq P] (ops : List (Operation P)) : Prop where
  bids : ∀ p, (restingAt ops IsBid p).Pairwise fun a b => a.order.Before b.order
  asks : ∀ p, (restingAt ops IsAsk p).Pairwise fun a b => a.order.Before b.order

/-! ### Queues are additions as they came in -/

section Queues

variable [LinearOrder P] {b : OrderBook P} {ops : List (Operation P)}

/-- Cancelling takes an id out of every queue it is in. -/
theorem SideInv.filter_queueAt {r : P → P → Prop} {levels : SortedMap r (PriceLevel P)}
    {own : Side → Prop} {orders : OrderTable P} (h : SideInv orders levels own) {id : Str} {p : P}
    (hid : ∀ o, orders.lookup id = some o → o.isCancelled = false → own o.side → o.price ≠ p) :
    (queueAt levels p).filter (fun a => a != id) = queueAt levels p := by
  refine List.filter_eq_self.mpr fun a ha => bne_iff_ne.mpr fun heq => ?_
  obtain ⟨o, ho, hc, hs, hp⟩ := (h.mem_iff p a).mp ha
  exact hid o (heq ▸ ho) hc hs hp

theorem OrderBook.Inv.queueAt_cancelOrder (h : b.Inv) (id : Str) (p : P) :
    queueAt (b.cancelOrder id).1.bids p = (queueAt b.bids p).filter (fun a => a != id) ∧
      queueAt (b.cancelOrder id).1.asks p = (queueAt b.asks p).filter (fun a => a != id) := by
  cases ho : b.orders.lookup id with
  | none =>
    have hno (o : Order P) (hx : b.orders.lookup id = some o) : False := by
      rw [ho] at hx
      cases hx
    rw [cancelOrder_of_notMem ho, h.bids.filter_queueAt fun o hx => (hno o hx).elim,
      h.asks.filter_queueAt fun o hx => (hno o hx).elim]
    exact ⟨rfl, rfl⟩
  | some o =>
    cases hc : o.isCancelled with
    | true =>
      have hno (x : Order P) (hx : b.orders.lookup id = some x) (hxc : x.isCancelled = false) :
          False := by
        obtain rfl := Option.some.inj (ho.symm.trans hx)
        rw [hc] at hxc
        cases hxc
      rw [cancelOrder_of_cancelled ho hc,
        h.bids.filter_queueAt fun x hx hxc => (hno x hx hxc).elim,
        h.asks.filter_queueAt fun x hx hxc => (hno x hx hxc).elim]
      exact ⟨rfl, rfl⟩
    | false =>
      rw [cancelOrder_of_active ho hc, queueAt_bids_markCancelled, queueAt_asks_markCancelled]
      constructor
      · split_ifs with hlevel
        · exact (h.bids.nodup p).erase_eq_filter id
        · refine (h.bids.filter_queueAt fun x hx _ hs hp => hlevel ⟨?_, ?_⟩).symm
          · exact Option.some.inj (ho.symm.trans hx) ▸ hs
          · exact Option.some.inj (ho.symm.trans hx) ▸ hp.symm
      · split_ifs with hlevel
        · exact (h.asks.nodup p).erase_eq_filter id
        · refine (h.asks.filter_queueAt fun x hx _ hs hp => hlevel ⟨?_, ?_⟩).symm
          · exact Option.some.inj (ho.symm.trans hx) ▸ hs
          · exact Option.some.inj (ho.symm.trans hx) ▸ hp.symm

omit [LinearOrder P] in
theorem CausallyOrdered.of_append {op : Operation P} (h : CausallyOrdered (ops ++ [op])) :
    CausallyOrdered ops := by
  rintro before k after rfl hc a ha
  refine h before k (after ++ [op]) ?_ hc a (List.mem_append_left _ ha)
  rw [List.append_assoc, List.cons_append]

omit [LinearOrder P] in
/-- In causal order nothing cancels an order before its addition. -/
theorem CausallyOrdered.cancelOrderId_ne {op : Operation P} (h : CausallyOrdered (ops ++ [op]))
    (hop : op ∉ ops) (hadd : op.IsAdd) :
    ∀ k ∈ ops, k.IsCancel → k.cancelOrderId ≠ op.order.orderId := by
  intro k hk hc hid
  obtain ⟨before, after, rfl⟩ := List.append_of_mem hk
  have hmem := h before k (after ++ [op]) (by rw [List.append_assoc, List.cons_append]) hc op
    (List.mem_append_right _ List.mem_cons_self) hadd hid.symm
  exact hop (List.mem_append_left _ hmem)

/-- **Queues.** After distinct coherent operations in causal order, a queue lists the additions of
its orders as they came in. -/
theorem queueAt_replay (hco : Coherent {op | op ∈ ops}) (hnd : ops.Nodup)
    (hcausal : CausallyOrdered ops) (n : Str) (p : P) :
    queueAt ((CRDTOrderBook.new n).replay ops).book.bids p =
        (restingAt ops IsBid p).map (fun a => a.order.orderId) ∧
      queueAt ((CRDTOrderBook.new n).replay ops).book.asks p =
        (restingAt ops IsAsk p).map (fun a => a.order.orderId) := by
  induction ops using List.reverseRecOn with
  | nil => exact ⟨rfl, rfl⟩
  | append_singleton ops op ih =>
    have hmem (a : Operation P) (ha : a ∈ ops) : a ∈ {a | a ∈ ops ++ [op]} :=
      List.mem_append_left _ ha
    have hop : op ∈ {a | a ∈ ops ++ [op]} := List.mem_append_right _ List.mem_cons_self
    obtain ⟨hnd', -, hdisj⟩ := List.nodup_append'.mp hnd
    have hnew : op ∉ ops := fun h => hdisj h List.mem_cons_self
    have ih := ih (hco.subset hmem) hnd' hcausal.of_append
    have hd := delivered_replay (hco.subset hmem) n
    rw [CRDTOrderBook.replay_append,
      CRDTOrderBook.book_applyRemoteOperation (hco.notMem_seenOps_replay hnew n)]
    rcases hco.valid op hop with ⟨hadd, -⟩ | hc
    · have hnone := hd.absent op.order.orderId fun a ha had hid =>
        hnew (hco.orderId_inj a (hmem a ha) op hop had hadd hid ▸ ha)
      have hfree := hcausal.cancelOrderId_ne hnew hadd
      rw [OrderBook.applyOperation_add _ hadd, OrderBook.insertReplicatedOrder,
        if_neg (AList.lookup_eq_none.mp hnone), OrderBook.queueAt_bids_place,
        OrderBook.queueAt_asks_place, restingAt_append_add hadd hfree,
        restingAt_append_add hadd hfree, ih.1, ih.2]
      constructor
      · rw [apply_ite (List.map _), List.map_append]
        rfl
      · rw [apply_ite (List.map _), List.map_append]
        rfl
    · obtain ⟨hbids, hasks⟩ := hd.inv.queueAt_cancelOrder op.cancelOrderId p
      rw [OrderBook.applyOperation_cancel _ hc, OrderBook.applyReplicatedCancel_eq, hbids, hasks,
        restingAt_append_cancel hc, restingAt_append_cancel hc, ih.1, ih.2, List.filter_map,
        List.filter_map]
      exact ⟨rfl, rfl⟩

end Queues

/-! ### Two replicas -/

section Agreement

variable [LinearOrder P] {b : OrderBook P} {ops ops' : List (Operation P)}

/-- The first of two ids belongs to the order of higher rank. -/
def BeforeAt (orders : OrderTable P) (id id' : Str) : Prop :=
  ∃ o o', orders.lookup id = some o ∧ orders.lookup id' = some o' ∧ o.Before o'

/-- Every queue lists its orders by rank. -/
structure OrderBook.TimeOrdered (b : OrderBook P) : Prop where
  bids : ∀ p, (queueAt b.bids p).Pairwise (BeforeAt b.orders)
  asks : ∀ p, (queueAt b.asks p).Pairwise (BeforeAt b.orders)

/-- The flag does not matter for the rank. -/
theorem Delivered.beforeAt_iff (h : Delivered b ops) {a a' : Operation P} (ha : a ∈ ops)
    (ha' : a' ∈ ops) (hadd : a.IsAdd) (hadd' : a'.IsAdd) :
    BeforeAt b.orders a.order.orderId a'.order.orderId ↔ a.order.Before a'.order := by
  obtain ⟨x, hx, heq, -⟩ := h.added a ha hadd
  obtain ⟨x', hx', heq', -⟩ := h.added a' ha' hadd'
  have hrank : x.Before x' ↔ a.order.Before a'.order := by
    rw [Order.before_iff, Order.before_iff, heq, heq']
    rfl
  refine ⟨?_, fun hb => ⟨x, x', hx, hx', hrank.mpr hb⟩⟩
  rintro ⟨y, y', hy, hy', hb⟩
  rw [← Option.some.inj (hx.symm.trans hy), ← Option.some.inj (hx'.symm.trans hy')] at hb
  exact hrank.mp hb

theorem timeOrdered_replay_iff (hco : Coherent {op | op ∈ ops}) (hnd : ops.Nodup)
    (hcausal : CausallyOrdered ops) (n : Str) :
    ((CRDTOrderBook.new n).replay ops).book.TimeOrdered ↔ ArrivedByRank ops := by
  have hd := delivered_replay hco n
  have hside {own : Side → Prop} [DecidablePred own] (p : P) :
      ((restingAt ops own p).map fun a => a.order.orderId).Pairwise
          (BeforeAt ((CRDTOrderBook.new n).replay ops).book.orders) ↔
        (restingAt ops own p).Pairwise fun a b => a.order.Before b.order := by
    rw [List.pairwise_map]
    refine List.Pairwise.iff_of_mem fun {a a'} ha ha' => ?_
    obtain ⟨hmem, hadd, -⟩ := mem_restingAt.mp ha
    obtain ⟨hmem', hadd', -⟩ := mem_restingAt.mp ha'
    exact hd.beforeAt_iff hmem hmem' hadd hadd'
  constructor
  · intro h
    refine ⟨fun p => (hside p).mp ?_, fun p => (hside p).mp ?_⟩
    · exact (queueAt_replay hco hnd hcausal n p).1 ▸ h.bids p
    · exact (queueAt_replay hco hnd hcausal n p).2 ▸ h.asks p
  · intro h
    refine ⟨fun p => ?_, fun p => ?_⟩
    · rw [(queueAt_replay hco hnd hcausal n p).1]
      exact (hside p).mpr (h.bids p)
    · rw [(queueAt_replay hco hnd hcausal n p).2]
      exact (hside p).mpr (h.asks p)

omit [LinearOrder P] in
/-- Lists of additions by rank are determined by their members. -/
theorem eq_of_pairwise_before {l l' : List (Operation P)} (hnd : l.Nodup) (hnd' : l'.Nodup)
    (hmem : ∀ a, a ∈ l ↔ a ∈ l') (h : l.Pairwise fun a b => a.order.Before b.order)
    (h' : l'.Pairwise fun a b => a.order.Before b.order) : l = l' :=
  ((List.perm_ext_iff_of_nodup hnd hnd').mpr hmem).eq_of_pairwise
    (fun _ _ _ _ hab hba => absurd hba hab.asymm) h h'

theorem restingAt_eq (hnd : ops.Nodup) (hnd' : ops'.Nodup) (hsame : ∀ op, op ∈ ops ↔ op ∈ ops')
    {own : Side → Prop} [DecidablePred own] {p : P}
    (h : (restingAt ops own p).Pairwise fun a b => a.order.Before b.order)
    (h' : (restingAt ops' own p).Pairwise fun a b => a.order.Before b.order) :
    restingAt ops own p = restingAt ops' own p := by
  refine eq_of_pairwise_before (hnd.filter _) (hnd'.filter _) (fun a => ?_) h h'
  rw [mem_restingAt, mem_restingAt, hsame]
  simp only [hsame]

/-- In causal order, the same operations leave the same entries in the table. -/
theorem lookup_replay_eq (hco : Coherent {op | op ∈ ops}) (hco' : Coherent {op | op ∈ ops'})
    (hsame : ∀ op, op ∈ ops ↔ op ∈ ops') (hcausal : CausallyOrdered ops)
    (hcausal' : CausallyOrdered ops') (n n' id : Str) :
    ((CRDTOrderBook.new n).replay ops).book.orders.lookup id =
      ((CRDTOrderBook.new n').replay ops').book.orders.lookup id := by
  have hd := delivered_replay hco n
  have hd' := delivered_replay hco' n'
  by_cases hid : ∃ a ∈ ops, a.IsAdd ∧ a.order.orderId = id
  · obtain ⟨a, ha, hadd, rfl⟩ := hid
    obtain ⟨x, hx, heq, hflag⟩ := hd.added a ha hadd
    obtain ⟨x', hx', heq', hflag'⟩ := hd'.added a ((hsame a).mp ha) hadd
    have hcancel : x.isCancelled = x'.isCancelled := by
      rw [Bool.eq_iff_iff, hflag, hflag', hcausal.cancelledAfterAdd_iff ha hadd,
        hcausal'.cancelledAfterAdd_iff ((hsame a).mp ha) hadd]
      simp only [hsame]
    rw [hx, hx', heq, heq', hcancel]
  · rw [hd.absent id fun a ha hadd heq => hid ⟨a, ha, hadd, heq⟩,
      hd'.absent id fun a ha hadd heq => hid ⟨a, (hsame a).mpr ha, hadd, heq⟩]

/-- When the additions came in by rank at both replicas, their levels are the same. -/
theorem levels_replay_eq (hco : Coherent {op | op ∈ ops}) (hco' : Coherent {op | op ∈ ops'})
    (hnd : ops.Nodup) (hnd' : ops'.Nodup) (hsame : ∀ op, op ∈ ops ↔ op ∈ ops')
    (hcausal : CausallyOrdered ops) (hcausal' : CausallyOrdered ops') (h : ArrivedByRank ops)
    (h' : ArrivedByRank ops') (n n' : Str) :
    ((CRDTOrderBook.new n).replay ops).book.bids = ((CRDTOrderBook.new n').replay ops').book.bids ∧
      ((CRDTOrderBook.new n).replay ops).book.asks =
        ((CRDTOrderBook.new n').replay ops').book.asks := by
  have hinv := (delivered_replay hco n).inv
  have hinv' := (delivered_replay hco' n').inv
  have hlookup := lookup_replay_eq hco hco' hsame hcausal hcausal' n n'
  have hbids (p : P) : queueAt ((CRDTOrderBook.new n).replay ops).book.bids p =
      queueAt ((CRDTOrderBook.new n').replay ops').book.bids p := by
    rw [(queueAt_replay hco hnd hcausal n p).1, (queueAt_replay hco' hnd' hcausal' n' p).1,
      restingAt_eq hnd hnd' hsame (h.bids p) (h'.bids p)]
  have hasks (p : P) : queueAt ((CRDTOrderBook.new n).replay ops).book.asks p =
      queueAt ((CRDTOrderBook.new n').replay ops').book.asks p := by
    rw [(queueAt_replay hco hnd hcausal n p).2, (queueAt_replay hco' hnd' hcausal' n' p).2,
      restingAt_eq hnd hnd' hsame (h.asks p) (h'.asks p)]
  constructor
  · have hrep := hinv.bids.represents.congr_orders fun _ id _ => (hlookup id).symm
    exact (hrep.congr_queues hbids).unique hinv'.bids.represents
  · have hrep := hinv.asks.represents.congr_orders fun _ id _ => (hlookup id).symm
    exact (hrep.congr_queues hasks).unique hinv'.asks.represents

namespace CRDTOrderBook

/-- **Time priority.** Let two replicas have applied the same operations, by local calls or from the
network, every cancellation after its addition. All queues of both list their orders by rank, and
all market orders get the same fills from both, if and only if at both the additions of the orders
that rest at a price came in by rank. -/
theorem timePriority_iff {n n' : Str} {r r' : CRDTOrderBook P} (h : (limitSystem P n).Reachable r)
    (h' : (limitSystem P n').Reachable r') (hco : Coherent {op | op ∈ r.opLog})
    (hsame : ∀ op, op ∈ r.opLog ↔ op ∈ r'.opLog) (hcausal : CausallyOrdered r.opLog)
    (hcausal' : CausallyOrdered r'.opLog) :
    (r.book.TimeOrdered ∧ r'.book.TimeOrdered ∧
        ∀ side q, (r.book.matchMarketOrder side q).2 = (r'.book.matchMarketOrder side q).2) ↔
      ArrivedByRank r.opLog ∧ ArrivedByRank r'.opLog := by
  have hco' : Coherent {op | op ∈ r'.opLog} := hco.subset fun op hop => (hsame op).mpr hop
  have hr := (replays_of_reachable h).2
  have hr' := (replays_of_reachable h').2
  have hnd := hr.nodup.of_map
  have hnd' := hr'.nodup.of_map
  rw [← hr.book n, ← hr'.book n', timeOrdered_replay_iff hco hnd hcausal,
    timeOrdered_replay_iff hco' hnd' hcausal', ← and_assoc, and_iff_left_iff_imp]
  rintro ⟨hrank, hrank'⟩ side q
  obtain ⟨hbids, hasks⟩ :=
    levels_replay_eq hco hco' hnd hnd' hsame hcausal hcausal' hrank hrank' n n'
  exact OrderBook.fills_congr hbids hasks
    (lookup_replay_eq hco hco' hsame hcausal hcausal' n n') side q

end CRDTOrderBook

end Agreement

/-! ### Two nodes that add an order each -/

/-- The addition of an ask of five shares at 100, the first call of the node `n`. -/
def crossedAdd (n oid opId : Str) : Operation ℤ :=
  ⟨OpType.addOrder, ⟨oid, n, Side.sell, 100, 5, 5, 1, false⟩, [], n, (VectorClock.new n).tick.1,
    opId⟩

theorem coherent_crossed :
    Coherent {op | op ∈ [crossedAdd [65] [97] [1], crossedAdd [66] [98] [2]]} where
  opId_inj a ha b hb heq := by
    rcases List.mem_pair.mp ha with rfl | rfl <;> rcases List.mem_pair.mp hb with rfl | rfl
    all_goals first | rfl | cases heq
  orderId_inj a ha b hb _ _ heq := by
    rcases List.mem_pair.mp ha with rfl | rfl <;> rcases List.mem_pair.mp hb with rfl | rfl
    all_goals first | rfl | cases heq
  valid a ha := by
    have hpos : (0 : ℤ) < 5 := by omega
    rcases List.mem_pair.mp ha with rfl | rfl
    · exact Or.inl ⟨rfl, rfl, hpos, rfl⟩
    · exact Or.inl ⟨rfl, rfl, hpos, rfl⟩

/-- Without cancellations every order is causal. -/
theorem causallyOrdered_of_adds {ops : List (Operation P)} (h : ∀ op ∈ ops, op.IsAdd) :
    CausallyOrdered ops := fun _ op _ heq hc =>
  absurd (h op (heq ▸ List.mem_append_right _ List.mem_cons_self)) hc.not_isAdd

/-- Two nodes add an ask each at one price, and then apply the addition of the other. -/
theorem exists_crossed : ∃ r r' : CRDTOrderBook ℤ, (limitSystem ℤ [65]).Reachable r ∧
    (limitSystem ℤ [66]).Reachable r' ∧ Coherent {op | op ∈ r.opLog} ∧
    (∀ op, op ∈ r.opLog ↔ op ∈ r'.opLog) ∧ CausallyOrdered r.opLog ∧ CausallyOrdered r'.opLog ∧
    r.opLog.map Operation.opId = [[1], [2]] ∧ r'.opLog.map Operation.opId = [[2], [1]] ∧
    (r.book.matchMarketOrder Side.buy 5).2 = [⟨[97], 100, 5⟩] ∧
    (r'.book.matchMarketOrder Side.buy 5).2 = [⟨[98], 100, 5⟩] := by
  set a := crossedAdd [65] [97] [1]
  set b := crossedAdd [66] [98] [2]
  have h := (Reachable.init (T := limitSystem ℤ [65]) |>.step
    (.addOrder Side.sell 100 5 [97] [1]) ⟨AList.notMem_empty _, Finset.notMem_empty _⟩).step
      (.applyRemote b) trivial
  have h' := (Reachable.init (T := limitSystem ℤ [66]) |>.step
    (.addOrder Side.sell 100 5 [98] [2]) ⟨AList.notMem_empty _, Finset.notMem_empty _⟩).step
      (.applyRemote a) trivial
  have hsame (op : Operation ℤ) : op ∈ [a, b] ↔ op ∈ [b, a] := by
    rw [List.mem_pair, List.mem_pair, or_comm]
  have hadds (op : Operation ℤ) (hop : op ∈ [a, b]) : op.IsAdd := by
    rcases List.mem_pair.mp hop with rfl | rfl <;> rfl
  exact ⟨_, _, h, h', coherent_crossed, hsame, causallyOrdered_of_adds hadds,
    causallyOrdered_of_adds fun op hop => hadds op ((hsame op).mpr hop), rfl, rfl, rfl,
    rfl⟩

namespace CRDTOrderBook

theorem timePriority_iff_crossed : ∃ r r' : CRDTOrderBook ℤ,
    r.opLog.map Operation.opId = [[1], [2]] ∧ r'.opLog.map Operation.opId = [[2], [1]] ∧
      ((r.book.TimeOrdered ∧ r'.book.TimeOrdered ∧
        ∀ side q, (r.book.matchMarketOrder side q).2 = (r'.book.matchMarketOrder side q).2) ↔
          ArrivedByRank r.opLog ∧ ArrivedByRank r'.opLog) := by
  obtain ⟨r, r', h, h', hco, hsame, hcausal, hcausal', hlog, hlog', -⟩ := exists_crossed
  exact ⟨r, r', hlog, hlog', timePriority_iff h h' hco hsame hcausal hcausal'⟩

/-- The two replicas fill different orders. -/
theorem not_timePriority_of_crossed :
    ¬ ∀ (n n' : Str) (r r' : CRDTOrderBook ℤ), (limitSystem ℤ n).Reachable r →
      (limitSystem ℤ n').Reachable r' → Coherent {op | op ∈ r.opLog} →
      (∀ op, op ∈ r.opLog ↔ op ∈ r'.opLog) → CausallyOrdered r.opLog → CausallyOrdered r'.opLog →
        r.book.TimeOrdered ∧ r'.book.TimeOrdered ∧
          ∀ side q, (r.book.matchMarketOrder side q).2 = (r'.book.matchMarketOrder side q).2 := by
  intro hall
  obtain ⟨r, r', h, h', hco, hsame, hcausal, hcausal', -, -, hfills, hfills'⟩ :=
    exists_crossed
  have heq := (hall [65] [66] r r' h h' hco hsame hcausal hcausal').2.2 Side.buy 5
  rw [hfills, hfills'] at heq
  cases heq

end CRDTOrderBook

end Convergence
