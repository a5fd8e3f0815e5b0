import Convergence.Crdt.CancelledOrders

/-!
# Books, logs and trades

Market orders are matched by the node that receives them, and what they fill is not logged. So the
book of a replica is not determined by its log alone. It is determined by the log and the fills that
the node itself has returned: the book shows the orders that the log adds and does not cancel, each
with its quantity less what the node has filled of it, and without those that are filled. This holds
along a run exactly as long as additions reach a replica before the cancellations of their orders.

## Main definitions

* `Effect`: what a call does to a book and what it logs.
* `Traded`: a book against the log and the fills.
* `tradedOrders`: the orders that a log and fills leave.
* `TradedCluster`, `tradedClientSystem`: clusters with the fills that their nodes have returned.

## Main results

* `CRDTOrderBook.WellFormed.effect_run`, `Traded.step`.
* `TradedCluster.booksFollowTrades_along_iff`.
-/

namespace Convergence

open TransitionSystem

variable {P : Type*}

/-! ### What matching flags -/

/-- An order that is flagged after the inner loop was so before, or is used up. -/
theorem QueueWalk.flagged_or_usedUp {queue queue' : List Str} {s s' : MatchState P}
    (h : QueueWalk queue s queue' s') {id : Str} {o : Order P}
    (ho : s'.orders.lookup id = some o) (hc : o.isCancelled = true) :
    s.orders.lookup id = some o ∨ o.remaining = 0 := by
  induction h with
  | stop => exact Or.inl ho
  | skip _ _ _ ih => exact ih ho
  | @usedUp a queue s queue' s' x _ _ _ _ _ ih =>
    rcases ih ho with hold | hzero
    · rw [MatchState.record, lookup_insert_eq] at hold
      split_ifs at hold
      · obtain rfl := Option.some.inj hold
        exact Or.inr rfl
      · exact Or.inl hold
    · exact Or.inr hzero
  | @lessBy a queue s x _ _ hx =>
    rw [MatchState.record, lookup_insert_eq] at ho
    split_ifs at ho
    · obtain rfl := Option.some.inj ho
      exact absurd hc (by simp [Order.lessBy, hx])
    · exact Or.inl ho

theorem matchLevels_flagged_or_usedUp (levels : List ((_ : P) × PriceLevel P)) (s : MatchState P)
    {id : Str} {o : Order P} (ho : (matchLevels levels s).2.orders.lookup id = some o)
    (hc : o.isCancelled = true) : s.orders.lookup id = some o ∨ o.remaining = 0 := by
  induction levels generalizing s with
  | nil => exact Or.inl ho
  | cons e levels ih =>
    rw [snd_matchLevels_cons] at ho
    split_ifs at ho
    · rcases ih _ ho with hold | hzero
      · exact (matchQueue_walk e.2.orders e.2.totalQuantity s).flagged_or_usedUp hold hc
      · exact Or.inr hzero
    · exact Or.inl ho

variable [LinearOrder P]

/-- An order that is flagged after a market order was so before, or is filled. -/
theorem OrderBook.flagged_or_filled (b : OrderBook P) (side : Side) (q : ℤ) {id : Str} {o : Order P}
    (ho : (b.matchMarketOrder side q).1.orders.lookup id = some o) (hc : o.isCancelled = true) :
    b.orders.lookup id = some o ∨ o.remaining = 0 := by
  rw [matchMarketOrder] at ho
  split_ifs at ho
  · exact matchLevels_flagged_or_usedUp b.asks.entries ⟨b.orders, q, []⟩ ho hc
  · exact matchLevels_flagged_or_usedUp b.bids.entries ⟨b.orders, q, []⟩ ho hc

/-! ### What a call does -/

/-- The fills that a call returns. -/
def Call.fills (r : CRDTOrderBook P) : Call P → List (Fill P)
  | marketOrder side quantity gen => (r.localMarketOrder side quantity gen).2
  | _ => []

/-- `Effect b b' ops fills`: the book `b` becomes `b'`, the operations `ops` are logged, and `fills`
are returned. -/
inductive Effect (b : OrderBook P) : OrderBook P → List (Operation P) → List (Fill P) → Prop
  | none (ops : List (Operation P)) (h : ∀ a ∈ ops, a.IsAdd → a.order.orderId ∈ b.orders) :
      Effect b b ops []
  | entered (a : Operation P) (ha : a.IsAdd) (hid : a.order.orderId ∉ b.orders) :
      Effect b (b.place a.order) [a] []
  | cancelled (c : Operation P) (hc : c.IsCancel) (o : Order P)
      (ho : b.orders.lookup c.cancelOrderId = some o) (hflag : o.isCancelled = false) :
      Effect b (b.markCancelled c.cancelOrderId o) [c] []
  | matched (side : Side) (q : ℤ) :
      Effect b (b.matchMarketOrder side q).1 [] (b.matchMarketOrder side q).2

/-- An operation that arrives for the first time. -/
theorem OrderBook.effect_applyOperation (b : OrderBook P) (op : Operation P) :
    Effect b (b.applyOperation op) [op] [] := by
  have hnone (h : ¬ op.IsAdd) : ∀ a ∈ [op], a.IsAdd → a.order.orderId ∈ b.orders :=
    fun a ha hadd => absurd (List.mem_singleton.mp ha ▸ hadd) h
  by_cases ha : op.IsAdd
  · rw [applyOperation_add b ha, insertReplicatedOrder]
    split_ifs with hid
    · exact .none _ fun a hmem _ => List.mem_singleton.mp hmem ▸ hid
    · exact .entered op ha hid
  · by_cases hc : op.IsCancel
    · rw [applyOperation_cancel b hc, applyReplicatedCancel_eq]
      obtain hcancel | ⟨o, ho, hflag, hcancel⟩ := cancelOrder_cases b op.cancelOrderId
      · rw [hcancel]
        exact .none _ (hnone ha)
      · rw [hcancel]
        exact .cancelled op hc o ho hflag
    · rw [applyOperation_other b ha hc]
      exact .none _ (hnone ha)

namespace CRDTOrderBook

variable {r : CRDTOrderBook P}

/-- What a call does to the book and to the log. -/
theorem WellFormed.effect_run (h : r.WellFormed) (call : Call P)
    (hfresh : ∀ side price q oid opId, call = .addOrder side price q oid opId →
      oid ∉ r.book.orders) :
    ∃ ops, (call.run r).opLog = r.opLog ++ ops ∧
      Effect r.book (call.run r).book ops (call.fills r) := by
  have hnil : ∀ a ∈ ([] : List (Operation P)), a.IsAdd → a.order.orderId ∈ r.book.orders :=
    fun a ha => absurd ha List.not_mem_nil
  cases call with
  | addOrder side price q oid opId =>
    let o := r.newOrder side price q oid
    exact ⟨_, rfl, .entered ((r.ticked (r.book.addOrder o).1).addOperation o opId) rfl
      (hfresh side price q oid opId rfl)⟩
  | cancelOrder orderId opId u =>
    rw [Call.run]
    by_cases hid : orderId ∈ r.book.orders
    · obtain ⟨o, ho⟩ := exists_lookup hid
      rw [localCancelOrder_of_mem hid]
      cases hflag : o.isCancelled with
      | true =>
        rw [OrderBook.cancelOrder_of_cancelled ho hflag]
        exact ⟨[], (List.append_nil _).symm, .none _ hnil⟩
      | false =>
        rw [OrderBook.cancelOrder_of_active ho hflag]
        exact ⟨_, rfl, .cancelled ((r.ticked (r.book.markCancelled orderId o)).cancelOperation
          orderId opId u) rfl o ho hflag⟩
    · rw [localCancelOrder_of_notMem hid]
      exact ⟨[], (List.append_nil _).symm, .none _ hnil⟩
  | marketOrder side q gen =>
    rw [Call.run, Call.fills, localMarketOrder_eq h.keyed]
    exact ⟨[], (List.append_nil _).symm, .matched side q⟩
  | applyRemote op =>
    by_cases hseen : op.opId ∈ r.seenOps
    · rw [Call.run, applyRemoteOperation_of_seen hseen]
      exact ⟨[], (List.append_nil _).symm, .none _ hnil⟩
    · rw [Call.run, opLog_applyRemoteOperation hseen, book_applyRemoteOperation hseen]
      exact ⟨[op], rfl, r.book.effect_applyOperation op⟩

end CRDTOrderBook

namespace Effect

variable {b b' : OrderBook P} {ops : List (Operation P)} {fills : List (Fill P)}

/-- Every effect is a change of the book, in which the orders that are logged may enter. -/
theorem change (h : Effect b b' ops fills) :
    b.Change (fun o => ∃ a ∈ ops, a.IsAdd ∧ a.order = o) b' fills := by
  cases h with
  | none => exact .same
  | entered a ha hid => exact .entered a.order hid ⟨a, List.mem_cons_self, ha, rfl⟩
  | cancelled c _ o ho hflag => exact .cancelled c.cancelOrderId o ho hflag
  | matched side q => exact .matched side q

/-- The order of every addition is in the book. -/
theorem mem_orders_of_isAdd (h : Effect b b' ops fills) {a : Operation P} (ha : a ∈ ops)
    (hadd : a.IsAdd) : a.order.orderId ∈ b'.orders := by
  cases h with
  | none _ hknown => exact hknown a ha hadd
  | entered x =>
    obtain rfl := List.mem_singleton.mp ha
    rw [OrderBook.orders_place]
    exact (AList.mem_insert _).mpr (Or.inl rfl)
  | cancelled c hc => exact absurd hadd (List.mem_singleton.mp ha ▸ hc).not_isAdd
  | matched => exact absurd ha List.not_mem_nil

/-- An order that is flagged after a call was so before, has entered so, is filled, or is named by a
cancellation that was logged. -/
theorem flagged (h : Effect b b' ops fills) {id : Str} {o : Order P}
    (ho : b'.orders.lookup id = some o) (hc : o.isCancelled = true) :
    b.orders.lookup id = some o ∨ (∃ a ∈ ops, a.IsAdd ∧ a.order = o) ∨ o.remaining = 0 ∨
      ∃ c ∈ ops, c.IsCancel ∧ c.cancelOrderId = id := by
  cases h with
  | none => exact Or.inl ho
  | entered a ha =>
    rw [OrderBook.orders_place, lookup_insert_eq] at ho
    split_ifs at ho
    · exact Or.inr (Or.inl ⟨a, List.mem_cons_self, ha, Option.some.inj ho⟩)
    · exact Or.inl ho
  | cancelled c hcancel =>
    rw [OrderBook.orders_markCancelled, lookup_insert_eq] at ho
    split_ifs at ho with hid
    · exact Or.inr (Or.inr (Or.inr ⟨c, List.mem_cons_self, hcancel, hid.symm⟩))
    · exact Or.inl ho
  | matched side q =>
    exact (b.flagged_or_filled side q ho hc).imp_right fun hzero => Or.inr (Or.inl hzero)

end Effect

/-! ### Books against logs and fills -/

/-- A book agrees with the operations that were logged and with the fills that were returned. -/
structure Traded (b : OrderBook P) (log : List (Operation P)) (fills : List (Fill P)) : Prop where
  inv : TradedBook.Inv ⟨b, fills⟩
  added : ∀ id o, b.orders.lookup id = some o →
    ∃ a ∈ log, a.IsAdd ∧ a.order.orderId = id ∧ a.order.Ages o
  kept : ∀ a ∈ log, a.IsAdd → a.order.orderId ∈ b.orders
  flagged : ∀ id o, b.orders.lookup id = some o → o.isCancelled = true →
    o.remaining = 0 ∨ ∃ c ∈ log, c.IsCancel ∧ c.cancelOrderId = id

namespace Traded

variable {b b' : OrderBook P} {log ops : List (Operation P)} {fills new : List (Fill P)}

theorem nil : Traded (OrderBook.new : OrderBook P) [] [] where
  inv := .init
  added id o ho := by simp [OrderBook.new] at ho
  kept a ha := absurd ha List.not_mem_nil
  flagged id o ho := by simp [OrderBook.new] at ho

/-- The ledger after a call. -/
theorem inv_step (h : TradedBook.Inv ⟨b, fills⟩) (heffect : Effect b b' ops new)
    (hnew : ∀ a ∈ ops, a.IsAdd → a.order.IsNew) : TradedBook.Inv ⟨b', fills ++ new⟩ := by
  cases heffect with
  | none => rwa [List.append_nil]
  | entered a ha hid =>
    obtain ⟨hr, hq, -⟩ := hnew a List.mem_cons_self ha
    exact h.step (.addOrder a.order) ⟨hid, hr, hq⟩
  | cancelled c hc o ho hflag =>
    have hstep := h.step (.cancelOrder c.cancelOrderId) trivial
    have hbook : (BookOp.cancelOrder c.cancelOrderId).apply b =
        b.markCancelled c.cancelOrderId o := by
      rw [BookOp.apply, OrderBook.cancelOrder_of_active ho hflag]
    exact hbook ▸ hstep
  | matched side q => exact h.step (.matchMarketOrder side q) trivial

theorem step (h : Traded b log fills) (heffect : Effect b b' ops new)
    (hnew : ∀ a ∈ ops, a.IsAdd → a.order.IsNew) : Traded b' (log ++ ops) (fills ++ new) := by
  have hchange := heffect.change
  have hages := hchange.ages h.inv.housed.keyed h.inv.housed.positive
  refine ⟨inv_step h.inv heffect hnew, fun id o' ho' => ?_, fun a ha hadd => ?_,
    fun id o' ho' hc' => ?_⟩
  · have hold {o : Order P} (ho : b.orders.lookup id = some o) :
        ∃ a ∈ log ++ ops, a.IsAdd ∧ a.order.orderId = id ∧ a.order.Ages o' := by
      obtain ⟨a, ha, hadd, hid, hage⟩ := h.added id o ho
      obtain ⟨x, hx, hage'⟩ := hages id o ho
      obtain rfl := Option.some.inj (hx.symm.trans ho')
      exact ⟨a, List.mem_append_left _ ha, hadd, hid, hage.trans hage'⟩
    rcases hchange.mem_orders h.inv.housed.keyed h.inv.housed.positive ho' with
      hmem | ⟨-, a, ha, hadd, rfl⟩
    · obtain ⟨o, ho⟩ := exists_lookup hmem
      exact hold ho
    · have hkeyed := (inv_step h.inv heffect hnew).housed.keyed
      exact ⟨a, List.mem_append_right _ ha, hadd, hkeyed id _ ho', .refl _⟩
  · rcases List.mem_append.mp ha with ha | ha
    · obtain ⟨o, ho⟩ := exists_lookup (h.kept a ha hadd)
      obtain ⟨o', ho', -⟩ := hages _ o ho
      exact mem_of_lookup ho'
    · exact heffect.mem_orders_of_isAdd ha hadd
  · rcases heffect.flagged ho' hc' with hold | ⟨a, ha, hadd, rfl⟩ | hzero | ⟨c, hc, hcancel, hid⟩
    · exact (h.flagged id o' hold hc').imp_right fun ⟨c, hc, hcancel, hid⟩ =>
        ⟨c, List.mem_append_left _ hc, hcancel, hid⟩
    · rw [(hnew a ha hadd).2.2] at hc'
      cases hc'
    · exact Or.inl hzero
    · exact Or.inr ⟨c, List.mem_append_right _ hc, hcancel, hid⟩

end Traded

/-- An order less what has been filled of it. -/
def Order.lessFills (fills : List (Fill P)) (o : Order P) : Order P :=
  { o with remaining := o.quantity - filled fills o.orderId }

omit [LinearOrder P] in
/-- An order that has lost what was filled of it, and has kept its flag. -/
theorem Order.Ages.lessFills_eq {o o' : Order P} {fills : List (Fill P)} (h : o.Ages o')
    (hflag : o'.isCancelled = o.isCancelled)
    (hrem : o'.remaining + filled fills o.orderId = o'.quantity) : o.lessFills fills = o' := by
  have hremaining : o.quantity - filled fills o.orderId = o'.remaining := by
    rw [← h.quantity, ← hrem, add_sub_cancel_right]
  calc o.lessFills fills
      = { o with remaining := o'.remaining, isCancelled := o'.isCancelled } := by
        rw [Order.lessFills, hremaining, hflag]
    _ = o' := h.fields.symm

/-- The orders that a set of operations adds and does not cancel, less what has been filled of
them, without those that are filled. -/
def tradedOrders (S : Finset (Operation P)) (fills : List (Fill P)) : Finset (Order P) :=
  ((referenceOrders S).image (Order.lessFills fills)).filter fun o => 0 < o.remaining

theorem mem_tradedOrders {S : Finset (Operation P)} {fills : List (Fill P)} {o : Order P} :
    o ∈ tradedOrders S fills ↔
      (∃ x ∈ referenceOrders S, x.lessFills fills = o) ∧ 0 < o.remaining := by
  rw [tradedOrders, Finset.mem_filter, Finset.mem_image]

/-- A book in which no cancelled order can be filled shows what the log and the fills leave. -/
theorem Traded.activeOrders_eq {b : OrderBook P} {log : List (Operation P)} {fills : List (Fill P)}
    (h : Traded b log fills) (hb : b.Inv) (hco : Coherent {op | op ∈ log})
    (hhold : ∀ c ∈ log, c.IsCancel → ∀ o, b.orders.lookup c.cancelOrderId = some o →
      o.isCancelled = true) : b.activeOrders = tradedOrders log.toFinset fills := by
  ext o
  rw [hb.mem_activeOrders, mem_tradedOrders]
  constructor
  · rintro ⟨ho, hflag⟩
    obtain ⟨a, ha, hadd, hid, hage⟩ := h.added _ o ho
    have hrem := h.inv.conserved _ o ho
    refine ⟨⟨a.order, mem_referenceOrders.mpr ⟨⟨a, List.mem_toFinset.mpr ha, hadd, rfl⟩,
      fun c hc hcancel hcid => ?_⟩, ?_⟩, (h.inv.housed.positive _ o ho).2 hflag⟩
    · rw [hhold c (List.mem_toFinset.mp hc) hcancel o (by rw [hcid, hid, ho])] at hflag
      cases hflag
    · exact hage.lessFills_eq (hflag.trans (hco.isNew ha hadd).2.2.symm) (hid ▸ hrem)
  · rintro ⟨⟨x, hx, rfl⟩, hpos⟩
    obtain ⟨⟨a, ha, hadd, rfl⟩, hnone⟩ := mem_referenceOrders.mp hx
    have ha := List.mem_toFinset.mp ha
    obtain ⟨o, ho⟩ := exists_lookup (h.kept a ha hadd)
    obtain ⟨a', ha', hadd', hid, hage⟩ := h.added _ o ho
    obtain rfl := hco.orderId_inj a ha a' ha' hadd hadd' hid.symm
    have hrem : o.remaining + filled fills a.order.orderId = o.quantity :=
      h.inv.conserved _ o ho
    have hpositive : o.remaining ≠ 0 := by
      have hquantity := hage.quantity
      simp only [Order.lessFills] at hpos
      omega
    have hflag : o.isCancelled = false := by
      by_contra hc
      rcases h.flagged _ o ho (Bool.eq_true_of_not_eq_false hc) with hzero | ⟨c, hc, hcancel, hid⟩
      · exact hpositive hzero
      · exact hnone c (List.mem_toFinset.mpr hc) hcancel hid
    rw [hage.lessFills_eq (hflag.trans (hco.isNew ha hadd).2.2.symm) hrem]
    exact ⟨hage.orderId.symm ▸ ho, hflag⟩

/-! ### Clusters with their fills -/

/-- A cluster, and the fills that each node has returned. -/
structure TradedCluster (P : Type*) [LinearOrder P] where
  cluster : Cluster P
  fills : Str → List (Fill P)

namespace TradedCluster

variable {t : TradedCluster P}

/-- Nothing has happened yet. -/
def init : TradedCluster P := ⟨Cluster.init, fun _ => []⟩

/-- A call, and the fills that it returns. -/
def step (t : TradedCluster P) (l : Str × Call P) : TradedCluster P where
  cluster := t.cluster.step l
  fills := Function.update t.fills l.1 (t.fills l.1 ++ l.2.fills (t.cluster.replicas l.1))

/-- Every replica shows what its log and its fills leave. -/
def BooksFollowTrades (t : TradedCluster P) : Prop :=
  ∀ n, (t.cluster.replicas n).book.activeOrders =
    tradedOrders (t.cluster.replicas n).opLog.toFinset (t.fills n)

end TradedCluster

/-- The runs of a cluster that serves clients, with the fills that are returned to them. -/
def tradedClientSystem (P : Type*) [LinearOrder P] :
    TransitionSystem (TradedCluster P) (Str × Call P) where
  init := .init
  enabled t l := (clientSystem P).enabled t.cluster l
  step := TradedCluster.step

namespace TradedCluster

variable {t : TradedCluster P}

/-- The invariant of a cluster, and every book against its log and its fills. -/
structure Inv (t : TradedCluster P) : Prop extends t.cluster.ClientInv where
  known : t.cluster.CancelsKnown
  traded : ∀ n, Traded (t.cluster.replicas n).book (t.cluster.replicas n).opLog (t.fills n)

namespace Inv

theorem init : (init : TradedCluster P).Inv where
  toClientInv := .init
  known := .init
  traded _ := .nil

theorem step (h : t.Inv) (l : Str × Call P) (hl : (tradedClientSystem P).enabled t l) :
    (t.step l).Inv where
  toClientInv := h.toClientInv.step l hl.1 hl.2
  known := h.known.step h.toInv l
  traded m := by
    obtain ⟨n, call⟩ := l
    have hinv := h.toClientInv.step (n, call) hl.1 hl.2
    by_cases hm : m = n
    · subst hm
      have hreplica : (t.cluster.step (m, call)).replicas m = call.run (t.cluster.replicas m) :=
        Function.update_self ..
      have hfills : (t.step (m, call)).fills m = t.fills m ++ call.fills (t.cluster.replicas m) :=
        Function.update_self ..
      obtain ⟨ops, hlog, heffect⟩ := (h.wellFormed m).effect_run call (by
        rintro side price q oid opId rfl
        exact Cluster.ClientInv.notMem_of_fresh h.toInv hl.1.1 m)
      change Traded ((t.cluster.step (m, call)).replicas m).book
        ((t.cluster.step (m, call)).replicas m).opLog _
      rw [hreplica, hfills, hlog]
      refine (h.traded m).step heffect fun a ha hadd => hinv.isNew a ?_ hadd
      refine hinv.created_of_mem (n := m) ?_
      rw [hreplica, hlog]
      exact List.mem_append_right _ ha
    · have hreplica : (t.cluster.step (n, call)).replicas m = t.cluster.replicas m :=
        Function.update_of_ne hm ..
      have hfills : (t.step (n, call)).fills m = t.fills m := Function.update_of_ne hm ..
      change Traded ((t.cluster.step (n, call)).replicas m).book
        ((t.cluster.step (n, call)).replicas m).opLog _
      rw [hreplica, hfills]
      exact h.traded m

/-- Nothing but a late addition comes between a book and what the log and the fills leave. -/
theorem booksFollowTrades_iff (h : t.Inv) :
    t.BooksFollowTrades ↔ t.cluster.CancellationsHold := by
  constructor
  · intro hfollow n op hop hc o ho hid
    rw [hfollow n] at ho
    obtain ⟨⟨x, hx, rfl⟩, -⟩ := mem_tradedOrders.mp ho
    exact (mem_referenceOrders.mp hx).2 op (List.mem_toFinset.mpr hop) hc hid.symm
  · intro hhold n
    have hco : Coherent {op | op ∈ (t.cluster.replicas n).opLog} :=
      h.coherent.subset fun op hop => ⟨n, hop⟩
    exact (h.traded n).activeOrders_eq (h.book n) hco
      ((Cluster.cancellationsHold_iff h.toClientInv).mp hhold n)

end Inv

/-- **Books follow trades.** Along any run of a cluster that serves clients, market orders included,
every replica shows exactly the orders that its log adds and does not cancel, each less what the
node itself has filled of it, if and only if every addition reaches a replica before the
cancellations of its order. -/
theorem booksFollowTrades_along_iff {calls : List (Str × Call P)}
    (h : (tradedClientSystem P).Enables init calls) :
    (tradedClientSystem P).Along BooksFollowTrades init calls ↔
      (tradedClientSystem P).Guarded (fun t l => t.cluster.AdditionFirst l) init calls :=
  along_iff_guarded (T := tradedClientSystem P) (I := fun t =>
      t.Inv ∧ ∀ n, (t.cluster.replicas n).CancellationsHold)
    (fun _ ht => ht.1.booksFollowTrades_iff.mpr
      ((Cluster.cancellationsHold_iff ht.1.toClientInv).mpr ht.2))
    (fun _ l ht hl hfirst => ⟨ht.1.step l hl,
      Cluster.cancellationsHold_step ht.1.toClientInv ht.1.known ht.2 hl.1 hfirst⟩)
    (fun _ l ht hl hlate hfollow => Cluster.not_cancellationsHold_step ht.1.toClientInv hl.1 hlate
      ((Cluster.cancellationsHold_iff (ht.1.step l hl).toClientInv).mp
        ((ht.1.step l hl).booksFollowTrades_iff.mp hfollow)))
    ⟨.init, fun _ _ hop => absurd hop List.not_mem_nil⟩ h

/-- Ids for the fills of a market order. -/
def sampleIds (i : ℕ) : Str × Uninit ℤ := (3 :: List.replicate i 0, ⟨Side.buy, 0, 0, 0, 0⟩)

/-- An order is sold to where it was entered, and reaches the other node in full. -/
def sold : List (Str × Call ℤ) :=
  [([49], .addOrder Side.buy 100 5 [97] [1]), ([49], .marketOrder Side.sell 2 sampleIds),
    ([50], .applyRemote sampleAdd)]

theorem enables_sold : (tradedClientSystem ℤ).Enables init sold := by
  have hadd : (tradedClientSystem ℤ).enabled init ([49], .addOrder Side.buy 100 5 [97] [1]) :=
    ⟨⟨Cluster.init_freshOrderId _, Cluster.init_freshOpId _⟩, show (0 : ℤ) < 5 by decide⟩
  have hinv := (Inv.init (P := ℤ)).step _ hadd
  refine ⟨hadd, ⟨⟨fun i j hij => ?_, fun i => ?_⟩, trivial⟩,
    ⟨⟨[49], List.mem_cons_self⟩, trivial⟩, trivial⟩
  · simpa [sampleIds] using hij
  · refine Cluster.freshOpId_of_history hinv.toInv fun op hop => ?_
    obtain rfl := List.mem_singleton.mp hop
    exact fun h => absurd (List.cons.inj h).1 (by decide)

theorem booksFollowTrades_along_iff_sold :
    (tradedClientSystem ℤ).Along BooksFollowTrades init sold ↔
      (tradedClientSystem ℤ).Guarded (fun t l => t.cluster.AdditionFirst l) init sold :=
  booksFollowTrades_along_iff enables_sold

end TradedCluster

end Convergence
