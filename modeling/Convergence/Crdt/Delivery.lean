import Convergence.Crdt.ClientRuns
import Mathlib.Data.Int.ConditionallyCompleteOrder

/-!
# Orders of delivery

A fresh replica is sent operations of a cluster, in any order and with repetitions. What it shows
depends on the sequence in one respect only: whether some cancellation of an order first came after
the addition of the order. A cancellation that comes first is dropped, and nothing makes up for it
when the addition arrives.

When every addition comes before the cancellations of its order, what the replica shows is a
function of the set of operations: the orders added and not cancelled.

## Main definitions

* `CancelledAfterAdd`: the only thing about a sequence that matters.
* `Delivered`: a book against the operations it was built from.
* `CRDTOrderBook.SameView`, `CausallyOrdered`, `referenceOrders`.

## Main results

* `Delivered.mem_activeOrders`, `delivered_replay`.
* `Cluster.sameView_replay_iff`, `Cluster.replay_eq_reference`.
-/

namespace Convergence

open TransitionSystem

variable {P : Type*}

/-- Some cancellation of the order `id` occurs for the first time after the addition of the
order. -/
def CancelledAfterAdd (ops : List (Operation P)) (id : Str) : Prop :=
  ∃ before op after, ops = before ++ op :: after ∧ op ∉ before ∧ op.IsCancel ∧
    op.cancelOrderId = id ∧ ∃ a ∈ before, a.IsAdd ∧ a.order.orderId = id

theorem cancelledAfterAdd_append {ops : List (Operation P)} {op : Operation P} {id : Str} :
    CancelledAfterAdd (ops ++ [op]) id ↔ CancelledAfterAdd ops id ∨
      op ∉ ops ∧ op.IsCancel ∧ op.cancelOrderId = id ∧
        ∃ a ∈ ops, a.IsAdd ∧ a.order.orderId = id := by
  constructor
  · rintro ⟨before, x, after, heq, h⟩
    rcases List.eq_nil_or_concat after with rfl | ⟨after, y, rfl⟩
    · obtain ⟨rfl, hx⟩ := List.append_inj' heq rfl
      obtain rfl := List.singleton_inj.mp hx
      exact Or.inr h
    · rw [List.concat_eq_append, ← List.cons_append, ← List.append_assoc] at heq
      exact Or.inl ⟨before, x, after, (List.append_inj' heq rfl).1, h⟩
  · rintro (⟨before, x, after, rfl, h⟩ | h)
    · exact ⟨before, x, after ++ [op], by simp, h⟩
    · exact ⟨ops, op, [], rfl, h⟩

theorem CancelledAfterAdd.exists_add {ops : List (Operation P)} {id : Str}
    (h : CancelledAfterAdd ops id) : ∃ a ∈ ops, a.IsAdd ∧ a.order.orderId = id := by
  obtain ⟨before, op, after, rfl, -, -, -, a, ha, had⟩ := h
  exact ⟨a, List.mem_append_left _ ha, had⟩

variable [LinearOrder P]

/-! ### The book after a sequence of operations -/

/-- The book `b` holds every order that `ops` adds, cancelled exactly when a cancellation of it came
after its addition, and no other order. -/
structure Delivered (b : OrderBook P) (ops : List (Operation P)) : Prop where
  inv : b.Inv
  added : ∀ a ∈ ops, a.IsAdd → ∃ x, b.orders.lookup a.order.orderId = some x ∧
    x = { a.order with isCancelled := x.isCancelled } ∧
      (x.isCancelled = true ↔ CancelledAfterAdd ops a.order.orderId)
  absent : ∀ id, (∀ a ∈ ops, a.IsAdd → a.order.orderId ≠ id) → b.orders.lookup id = none

namespace Delivered

variable {b : OrderBook P} {ops : List (Operation P)} {op : Operation P}

theorem new : Delivered (OrderBook.new : OrderBook P) [] where
  inv := .new
  added _ ha := absurd ha List.not_mem_nil
  absent _ _ := rfl

theorem exists_add (h : Delivered b ops) {id : Str} {x : Order P}
    (hx : b.orders.lookup id = some x) : ∃ a ∈ ops, a.IsAdd ∧ a.order.orderId = id := by
  by_contra hno
  have hnone := h.absent id fun a ha had heq => hno ⟨a, ha, had, heq⟩
  rw [hnone] at hx
  cases hx

/-- A repeated delivery leaves the book alone. -/
theorem repeated (h : Delivered b ops) (hop : op ∈ ops) : Delivered b (ops ++ [op]) where
  inv := h.inv
  added a ha had := by
    have ha' : a ∈ ops := by
      rcases List.mem_append.mp ha with ha | ha
      · exact ha
      · exact List.mem_singleton.mp ha ▸ hop
    obtain ⟨x, hx, heq, hc⟩ := h.added a ha' had
    refine ⟨x, hx, heq, hc.trans ?_⟩
    rw [cancelledAfterAdd_append]
    exact (or_iff_left fun hnew => hnew.1 hop).symm
  absent id hid := h.absent id fun a ha => hid a (List.mem_append_left _ ha)

/-- The first delivery of an addition. -/
theorem add (h : Delivered b ops) (hadd : op.IsAdd) (hnew : op.order.IsNew)
    (hid : ∀ a ∈ ops, a.IsAdd → a.order.orderId ≠ op.order.orderId) :
    Delivered (b.insertReplicatedOrder op.order) (ops ++ [op]) := by
  have hnone := h.absent _ hid
  have hplace : b.insertReplicatedOrder op.order = b.place op.order :=
    if_neg (AList.lookup_eq_none.mp hnone)
  have hcancelled (id : Str) : CancelledAfterAdd (ops ++ [op]) id ↔ CancelledAfterAdd ops id := by
    rw [cancelledAfterAdd_append]
    exact or_iff_left fun hc => hc.2.1.not_isAdd hadd
  refine ⟨h.inv.insertReplicatedOrder hnew.2.2 (hnew.1 ▸ hnew.2.1), fun a ha had => ?_,
    fun id hno => ?_⟩
  · simp only [hplace, OrderBook.orders_place, lookup_insert_eq, hcancelled]
    rcases List.mem_append.mp ha with ha | ha
    · rw [if_neg (hid a ha had)]
      exact h.added a ha had
    · obtain rfl := List.mem_singleton.mp ha
      refine ⟨a.order, if_pos rfl, rfl, ?_⟩
      rw [hnew.2.2]
      refine iff_of_false Bool.false_ne_true fun hc => ?_
      obtain ⟨a', ha', had', heq⟩ := hc.exists_add
      exact hid a' ha' had' heq
  · rw [hplace, OrderBook.orders_place, lookup_insert_eq, if_neg]
    · exact h.absent id fun a ha => hno a (List.mem_append_left _ ha)
    · exact (hno op (List.mem_append_right _ List.mem_cons_self) hadd).symm

/-- A first delivery of a cancellation, before or after the addition of its order. -/
theorem cancel (h : Delivered b ops) (hc : op.IsCancel) (hop : op ∉ ops) :
    Delivered (b.applyReplicatedCancel op.cancelOrderId) (ops ++ [op]) := by
  -- The additions are those from before.
  have hadds {a : Operation P} (ha : a ∈ ops ++ [op]) (had : a.IsAdd) : a ∈ ops := by
    rcases List.mem_append.mp ha with ha | ha
    · exact ha
    · exact absurd (List.mem_singleton.mp ha ▸ had) hc.not_isAdd
  have hcancelled {a : Operation P} (ha : a ∈ ops) (had : a.IsAdd) :
      CancelledAfterAdd (ops ++ [op]) a.order.orderId ↔
        CancelledAfterAdd ops a.order.orderId ∨ op.cancelOrderId = a.order.orderId := by
    rw [cancelledAfterAdd_append]
    refine or_congr_right ⟨fun hnew => hnew.2.2.1, fun heq => ⟨hop, hc, heq, a, ha, had, rfl⟩⟩
  have habsent {id : Str} (hid : ∀ a ∈ ops ++ [op], a.IsAdd → a.order.orderId ≠ id) :
      b.orders.lookup id = none := h.absent id fun a ha => hid a (List.mem_append_left _ ha)
  rw [OrderBook.applyReplicatedCancel_eq]
  have hinv := h.inv.cancelOrder op.cancelOrderId
  cases ho : b.orders.lookup op.cancelOrderId with
  | none =>
    rw [OrderBook.cancelOrder_of_notMem ho] at hinv ⊢
    refine ⟨hinv, fun a ha had => ?_, fun id => habsent⟩
    obtain ⟨x, hx, heq, hflag⟩ := h.added a (hadds ha had) had
    refine ⟨x, hx, heq, hflag.trans ?_⟩
    rw [hcancelled (hadds ha had) had, or_iff_left]
    intro hid
    rw [hid, hx] at ho
    cases ho
  | some o =>
    cases hoc : o.isCancelled with
    | true =>
      rw [OrderBook.cancelOrder_of_cancelled ho hoc] at hinv ⊢
      refine ⟨hinv, fun a ha had => ?_, fun id => habsent⟩
      obtain ⟨x, hx, heq, hflag⟩ := h.added a (hadds ha had) had
      refine ⟨x, hx, heq, hflag.trans ?_⟩
      rw [hcancelled (hadds ha had) had, iff_self_or]
      intro hid
      rw [hid, hx] at ho
      rwa [← hflag, Option.some.inj ho]
    | false =>
      rw [OrderBook.cancelOrder_of_active ho hoc] at hinv ⊢
      refine ⟨hinv, fun a ha had => ?_, fun id hno => ?_⟩
      · obtain ⟨x, hx, heq, hflag⟩ := h.added a (hadds ha had) had
        simp only [OrderBook.orders_markCancelled, lookup_insert_eq, hcancelled (hadds ha had) had]
        by_cases hid : a.order.orderId = op.cancelOrderId
        · rw [hid, ho] at hx
          obtain rfl := Option.some.inj hx
          refine ⟨_, if_pos hid, ?_, iff_of_true rfl (Or.inr hid.symm)⟩
          rw [heq]
        · refine ⟨x, (if_neg hid).trans hx, heq, hflag.trans (or_iff_left ?_).symm⟩
          exact fun heq' => hid heq'.symm
      · rw [OrderBook.orders_markCancelled, lookup_insert_eq, if_neg]
        · exact habsent hno
        · rintro rfl
          rw [habsent hno] at ho
          cases ho

/-- The active orders are those added and not cancelled afterwards. -/
theorem mem_activeOrders (h : Delivered b ops)
    (hnew : ∀ a ∈ ops, a.IsAdd → a.order.isCancelled = false) {o : Order P} :
    o ∈ b.activeOrders ↔
      (∃ a ∈ ops, a.IsAdd ∧ a.order = o) ∧ ¬ CancelledAfterAdd ops o.orderId := by
  rw [h.inv.mem_activeOrders]
  constructor
  · rintro ⟨ho, hc⟩
    obtain ⟨a, ha, had, hid⟩ := h.exists_add ho
    obtain ⟨x, hx, heq, hflag⟩ := h.added a ha had
    rw [hid] at hx hflag
    obtain rfl := Option.some.inj (hx.symm.trans ho)
    refine ⟨⟨a, ha, had, ?_⟩, fun hcancel => ?_⟩
    · rw [heq, hc, ← hnew a ha had]
    · rw [hflag.mpr hcancel] at hc
      cases hc
  · rintro ⟨⟨a, ha, had, rfl⟩, hcancel⟩
    obtain ⟨x, hx, heq, hflag⟩ := h.added a ha had
    have hc : x.isCancelled = false := Bool.eq_false_iff.mpr fun hc => hcancel (hflag.mp hc)
    have hsame : x = a.order := by rw [heq, hc, ← hnew a ha had]
    exact ⟨hsame ▸ hx, hnew a ha had⟩

end Delivered

/-- An operation that has not been replayed has not been seen. -/
theorem Coherent.notMem_seenOps_replay {ops : List (Operation P)} {op : Operation P}
    (h : Coherent {a | a ∈ ops ++ [op]}) (hop : op ∉ ops) (n : Str) :
    op.opId ∉ ((CRDTOrderBook.new n : CRDTOrderBook P).replay ops).seenOps := by
  rw [CRDTOrderBook.mem_seenOps_replay]
  rintro (hid | ⟨a, ha, hid⟩)
  · simp at hid
  · exact hop (h.opId_inj a (List.mem_append_left _ ha) op
      (List.mem_append_right _ List.mem_cons_self) hid ▸ ha)

/-- The book after any sequence of coherent operations. -/
theorem delivered_replay {ops : List (Operation P)} (h : Coherent {op | op ∈ ops}) (n : Str) :
    Delivered ((CRDTOrderBook.new n).replay ops).book ops := by
  induction ops using List.reverseRecOn with
  | nil => exact .new
  | append_singleton ops op ih =>
    have hmem (a : Operation P) (ha : a ∈ ops) : a ∈ {a | a ∈ ops ++ [op]} :=
      List.mem_append_left _ ha
    have hop : op ∈ {a | a ∈ ops ++ [op]} := List.mem_append_right _ List.mem_cons_self
    have ih := ih (h.subset hmem)
    rw [CRDTOrderBook.replay_append]
    by_cases hrep : op ∈ ops
    · rw [CRDTOrderBook.applyRemoteOperation_of_seen
        ((CRDTOrderBook.mem_seenOps_replay _ _).mpr (Or.inr ⟨op, hrep, rfl⟩))]
      exact ih.repeated hrep
    · rw [CRDTOrderBook.book_applyRemoteOperation (h.notMem_seenOps_replay hrep n)]
      rcases h.valid op hop with ⟨hadd, hnew⟩ | hcancel
      · rw [OrderBook.applyOperation_add _ hadd]
        refine ih.add hadd hnew fun a ha had hid => hrep ?_
        exact h.orderId_inj a (hmem a ha) op hop had hadd hid ▸ ha
      · rw [OrderBook.applyOperation_cancel _ hcancel]
        exact ih.cancel hcancel hrep

/-! ### Any order of delivery -/

/-- The same active orders, and the same prices and totals on both sides of every snapshot. -/
structure CRDTOrderBook.SameView (r r' : CRDTOrderBook P) : Prop where
  orders : ∀ o, o ∈ r.book.getAllOrders ↔ o ∈ r'.book.getAllOrders
  bids : ∀ depth, (r.getSnapshot depth).bids.map PriceLevel.quote =
    (r'.getSnapshot depth).bids.map PriceLevel.quote
  asks : ∀ depth, (r.getSnapshot depth).asks.map PriceLevel.quote =
    (r'.getSnapshot depth).asks.map PriceLevel.quote

theorem CRDTOrderBook.sameView_iff {r r' : CRDTOrderBook P} (h : r.book.Inv) (h' : r'.book.Inv) :
    r.SameView r' ↔ r.book.activeOrders = r'.book.activeOrders := by
  constructor
  · intro hview
    ext o
    simpa only [OrderBook.activeOrders, List.mem_toFinset] using hview.orders o
  · intro heq
    refine ⟨fun o => ?_, fun depth => ?_, fun depth => ?_⟩
    · rw [← List.mem_toFinset, ← List.mem_toFinset]
      exact Finset.ext_iff.mp heq o
    · rw [CRDTOrderBook.getSnapshot, CRDTOrderBook.getSnapshot, (h.quotes_getSnapshot depth).1,
        (h'.quotes_getSnapshot depth).1, heq]
    · rw [CRDTOrderBook.getSnapshot, CRDTOrderBook.getSnapshot, (h.quotes_getSnapshot depth).2,
        (h'.quotes_getSnapshot depth).2, heq]

/-- Two sequences of the same coherent operations leave the same active orders if and only if they
cancel the same orders after adding them. -/
theorem activeOrders_replay_eq_iff {ops ops' : List (Operation P)} (h : Coherent {op | op ∈ ops})
    (hmem : ∀ op, op ∈ ops ↔ op ∈ ops') (n n' : Str) :
    ((CRDTOrderBook.new n).replay ops).book.activeOrders =
        ((CRDTOrderBook.new n').replay ops').book.activeOrders ↔
      ∀ id, CancelledAfterAdd ops id ↔ CancelledAfterAdd ops' id := by
  have h' : Coherent {op | op ∈ ops'} := h.subset fun op => (hmem op).mpr
  have hactive {o : Order P} := (delivered_replay h n).mem_activeOrders (o := o)
    fun a ha had => (h.isNew ha had).2.2
  have hactive' {o : Order P} := (delivered_replay h' n').mem_activeOrders (o := o)
    fun a ha had => (h'.isNew ha had).2.2
  constructor
  · intro heq id
    by_cases hadd : ∃ a ∈ ops, a.IsAdd ∧ a.order.orderId = id
    · obtain ⟨a, ha, had, rfl⟩ := hadd
      have hiff := Finset.ext_iff.mp heq a.order
      rw [hactive, hactive'] at hiff
      have hleft : ∃ x ∈ ops, x.IsAdd ∧ x.order = a.order := ⟨a, ha, had, rfl⟩
      have hright : ∃ x ∈ ops', x.IsAdd ∧ x.order = a.order := ⟨a, (hmem a).mp ha, had, rfl⟩
      simp only [hleft, hright, true_and] at hiff
      exact not_iff_not.mp hiff
    · refine iff_of_false (fun hc => hadd hc.exists_add) fun hc => hadd ?_
      obtain ⟨a, ha, had⟩ := hc.exists_add
      exact ⟨a, (hmem a).mpr ha, had⟩
  · intro hiff
    ext o
    rw [hactive, hactive', hiff]
    simp only [hmem]

theorem Cluster.coherent_of_mem {c : Cluster P} (h : (clientSystem P).Reachable c)
    {S : Finset (Operation P)} (hS : ∀ op ∈ S, ∃ n, op ∈ (c.replicas n).opLog)
    {ops : List (Operation P)} (hops : ∀ op, op ∈ ops ↔ op ∈ S) : Coherent {op | op ∈ ops} :=
  (Cluster.coherent_of_reachable h).subset fun op hop => hS op ((hops op).mp hop)

/-- **Independence of the order of delivery.** Two sequences of the same operations of a cluster
leave two fresh replicas with the same view if and only if they cancel the same orders after adding
them. -/
theorem Cluster.sameView_replay_iff {c : Cluster P} (h : (clientSystem P).Reachable c)
    {S : Finset (Operation P)} (hS : ∀ op ∈ S, ∃ n, op ∈ (c.replicas n).opLog)
    {ops ops' : List (Operation P)} (hops : ∀ op, op ∈ ops ↔ op ∈ S)
    (hops' : ∀ op, op ∈ ops' ↔ op ∈ S) (n n' : Str) :
    ((CRDTOrderBook.new n).replay ops).SameView ((CRDTOrderBook.new n').replay ops') ↔
      ∀ id, CancelledAfterAdd ops id ↔ CancelledAfterAdd ops' id := by
  have hco := Cluster.coherent_of_mem h hS hops
  have hco' := Cluster.coherent_of_mem h hS hops'
  rw [CRDTOrderBook.sameView_iff (delivered_replay hco n).inv (delivered_replay hco' n').inv]
  exact activeOrders_replay_eq_iff hco (fun op => (hops op).trans (hops' op).symm) n n'

/-! An order added and cancelled at one node. -/

/-- The addition of the order. -/
def sampleAdd : Operation ℤ where
  type := OpType.addOrder
  order := ⟨[97], [49], Side.buy, 100, 5, 5, 1, false⟩
  cancelOrderId := []
  originNode := [49]
  clock := (VectorClock.new [49]).tick.1
  opId := [1]

/-- The cancellation of the order. -/
def sampleCancel : Operation ℤ where
  type := OpType.cancelOrder
  order := Order.uninit ⟨Side.buy, 0, 0, 0, 0⟩
  cancelOrderId := [97]
  originNode := [49]
  clock := (VectorClock.new [49]).tick.1.tick.1
  opId := [2]

theorem exists_reachable_sample : ∃ c : Cluster ℤ, (clientSystem ℤ).Reachable c ∧
    ∀ op ∈ ({sampleAdd, sampleCancel} : Finset (Operation ℤ)), ∃ n, op ∈ (c.replicas n).opLog := by
  have h₁ := Reachable.init (T := clientSystem ℤ) |>.step
    ([49], .addOrder Side.buy 100 5 [97] [1])
    ⟨⟨Cluster.init_freshOrderId _, Cluster.init_freshOpId _⟩, show (0 : ℤ) < 5 by decide⟩
  have h₂ := h₁.step ([49], .cancelOrder [97] [2] ⟨Side.buy, 0, 0, 0, 0⟩)
    ⟨Cluster.freshOpId_of_history (Cluster.clientInv_of_reachable h₁).toInv (by decide), trivial⟩
  obtain ⟨c, hc, hlog⟩ : ∃ c, (clientSystem ℤ).Reachable c ∧
      (c.replicas [49]).opLog = [sampleAdd, sampleCancel] := ⟨_, h₂, rfl⟩
  refine ⟨c, hc, fun op hop => ⟨[49], ?_⟩⟩
  rw [hlog]
  simpa using hop

/-- The addition and the cancellation, each first in one of the sequences. -/
theorem sameView_replay_iff_swapped :
    ((CRDTOrderBook.new [50]).replay [sampleAdd, sampleCancel]).SameView
        ((CRDTOrderBook.new [51]).replay [sampleCancel, sampleAdd]) ↔
      ∀ id, CancelledAfterAdd [sampleAdd, sampleCancel] id ↔
        CancelledAfterAdd [sampleCancel, sampleAdd] id := by
  obtain ⟨c, hc, hS⟩ := exists_reachable_sample
  exact Cluster.sameView_replay_iff hc hS (by simp) (by simp [or_comm]) [50] [51]

/-- A cancellation that overtakes its addition is lost. -/
theorem not_sameView_of_reordered :
    ¬ ∀ c : Cluster ℤ, (clientSystem ℤ).Reachable c → ∀ S : Finset (Operation ℤ),
      (∀ op ∈ S, ∃ n, op ∈ (c.replicas n).opLog) → ∀ ops ops' : List (Operation ℤ),
      (∀ op, op ∈ ops ↔ op ∈ S) → (∀ op, op ∈ ops' ↔ op ∈ S) → ∀ n n',
        ((CRDTOrderBook.new n).replay ops).SameView ((CRDTOrderBook.new n').replay ops') := by
  intro hall
  obtain ⟨c, hc, hS⟩ := exists_reachable_sample
  have hview := hall c hc _ hS [sampleAdd, sampleCancel] [sampleCancel, sampleAdd] (by simp)
    (by simp [or_comm]) [50] [51]
  have hshown : sampleAdd.order ∈
      ((CRDTOrderBook.new [51]).replay [sampleCancel, sampleAdd]).book.getAllOrders := by decide
  exact absurd ((hview.orders _).mpr hshown) (by decide)

/-! ### Causal order of delivery -/

/-- The addition of an order, when there is one, comes before every cancellation of the order. -/
def CausallyOrdered (ops : List (Operation P)) : Prop :=
  ∀ before op after, ops = before ++ op :: after → op.IsCancel →
    ∀ a ∈ ops, a.IsAdd → a.order.orderId = op.cancelOrderId → a ∈ before

/-- The orders that a set of operations adds and does not cancel. -/
def referenceOrders (S : Finset (Operation P)) : Finset (Order P) :=
  ({a ∈ S | a.IsAdd}.image Operation.order).filter fun o =>
    ∀ op ∈ S, op.IsCancel → op.cancelOrderId ≠ o.orderId

theorem mem_referenceOrders {S : Finset (Operation P)} {o : Order P} :
    o ∈ referenceOrders S ↔ (∃ a ∈ S, a.IsAdd ∧ a.order = o) ∧
      ∀ op ∈ S, op.IsCancel → op.cancelOrderId ≠ o.orderId := by
  simp only [referenceOrders, Finset.mem_filter, Finset.mem_image, and_assoc]

omit [LinearOrder P] in
/-- In causal order, being cancelled after the addition is being cancelled at all. -/
theorem CausallyOrdered.cancelledAfterAdd_iff {ops : List (Operation P)} (h : CausallyOrdered ops)
    {a : Operation P} (ha : a ∈ ops) (had : a.IsAdd) :
    CancelledAfterAdd ops a.order.orderId ↔
      ∃ op ∈ ops, op.IsCancel ∧ op.cancelOrderId = a.order.orderId := by
  constructor
  · rintro ⟨before, op, after, rfl, -, hc, hid, -⟩
    exact ⟨op, List.mem_append_right _ List.mem_cons_self, hc, hid⟩
  · rintro ⟨op, hop, hc, hid⟩
    obtain ⟨before, after, heq, hfirst⟩ := List.eq_append_cons_of_mem hop
    exact ⟨before, op, after, heq, hfirst, hc, hid, a,
      h before op after heq hc a ha had hid.symm, had, rfl⟩

/-- **Replication under causal delivery.** Any sequence of exactly the operations `S` in causal
order, repetitions allowed, leaves a fresh replica with the book computed from `S` as a set. -/
theorem Cluster.replay_eq_reference {c : Cluster P} (h : (clientSystem P).Reachable c)
    {S : Finset (Operation P)} (hS : ∀ op ∈ S, ∃ n, op ∈ (c.replicas n).opLog)
    {ops : List (Operation P)} (hops : ∀ op, op ∈ ops ↔ op ∈ S) (hcausal : CausallyOrdered ops)
    (n : Str) :
    ((CRDTOrderBook.new n).replay ops).book.activeOrders = referenceOrders S ∧
      (∀ o ∈ referenceOrders S, o.remaining = o.quantity) ∧
      ((CRDTOrderBook.new n).replay ops).getOrderCount = (referenceOrders S).card ∧
      ∀ depth, (((CRDTOrderBook.new n).replay ops).getSnapshot depth).bids.map PriceLevel.quote =
          (groupedSums (· ≥ ·) Order.price Order.quantity
            {o ∈ referenceOrders S | o.side = Side.buy}).take depth.toNat ∧
        (((CRDTOrderBook.new n).replay ops).getSnapshot depth).asks.map PriceLevel.quote =
          (groupedSums (· ≤ ·) Order.price Order.quantity
            {o ∈ referenceOrders S | o.side ≠ Side.buy}).take depth.toNat := by
  have hco := Cluster.coherent_of_mem h hS hops
  have hd := delivered_replay hco n
  set r := (CRDTOrderBook.new n : CRDTOrderBook P).replay ops
  have hactive : r.book.activeOrders = referenceOrders S := by
    ext o
    rw [hd.mem_activeOrders fun a ha had => (hco.isNew ha had).2.2, mem_referenceOrders]
    simp only [← hops]
    refine and_congr_right ?_
    rintro ⟨a, ha, had, rfl⟩
    rw [hcausal.cancelledAfterAdd_iff ha had]
    simp only [not_exists, not_and, ne_eq]
  have hquantity : ∀ o ∈ referenceOrders S, o.remaining = o.quantity := fun o ho => by
    obtain ⟨⟨a, ha, had, rfl⟩, -⟩ := mem_referenceOrders.mp ho
    exact (hco.isNew ((hops a).mpr ha) had).1
  refine ⟨hactive, hquantity, ?_, fun depth => ?_⟩
  · rw [CRDTOrderBook.getOrderCount, ← OrderBook.card_activeOrders hd.inv.keyed, hactive]
  · obtain ⟨hbids, hasks⟩ := hd.inv.quotes_getSnapshot depth
    rw [CRDTOrderBook.getSnapshot, hbids, hasks, hactive, bidQuotes, askQuotes,
      groupedSums_congr fun o ho => hquantity o (Finset.mem_filter.mp ho).1,
      groupedSums_congr fun o ho => hquantity o (Finset.mem_filter.mp ho).1]
    exact ⟨rfl, rfl⟩

/-- The addition, the cancellation, and both again. -/
theorem replay_eq_reference_repeated :
    ((CRDTOrderBook.new [50]).replay
        [sampleAdd, sampleCancel, sampleAdd, sampleCancel]).book.activeOrders =
      referenceOrders {sampleAdd, sampleCancel} := by
  obtain ⟨c, hc, hS⟩ := exists_reachable_sample
  have hmem (op : Operation ℤ) : op ∈ [sampleAdd, sampleCancel, sampleAdd, sampleCancel] ↔
      op ∈ ({sampleAdd, sampleCancel} : Finset (Operation ℤ)) := by
    simp only [List.mem_cons, List.not_mem_nil, Finset.mem_insert, Finset.mem_singleton]
    tauto
  have hcausal : CausallyOrdered [sampleAdd, sampleCancel, sampleAdd, sampleCancel] := by
    rintro (_ | ⟨x, before⟩) op after heq hcancel a ha hadd -
    · obtain ⟨rfl, -⟩ := List.cons.inj heq
      exact absurd hcancel (by decide)
    · obtain ⟨rfl, -⟩ := List.cons.inj heq
      rcases Finset.mem_insert.mp ((hmem a).mp ha) with rfl | ha
      · exact List.mem_cons_self
      · obtain rfl := Finset.mem_singleton.mp ha
        exact absurd hadd (by decide)
  exact (Cluster.replay_eq_reference hc hS hmem hcausal [50]).1

/-- The addition of an order of quantity zero. -/
def zeroAdd : Operation ℤ where
  type := OpType.addOrder
  order := ⟨[97], [49], Side.buy, 100, 0, 0, 1, false⟩
  cancelOrderId := []
  originNode := [49]
  clock := (VectorClock.new [49]).tick.1
  opId := [1]

/-- An order of quantity zero is added and not cancelled, and is not active. -/
theorem not_replay_eq_reference_of_zero :
    ¬ ∀ c : Cluster ℤ, (clusterSystem ℤ).Reachable c → ∀ S : Finset (Operation ℤ),
      (∀ op ∈ S, ∃ n, op ∈ (c.replicas n).opLog) → ∀ ops : List (Operation ℤ),
      (∀ op, op ∈ ops ↔ op ∈ S) → CausallyOrdered ops → ∀ n,
        ((CRDTOrderBook.new n).replay ops).book.activeOrders = referenceOrders S ∧
          (∀ o ∈ referenceOrders S, o.remaining = o.quantity) ∧
          ((CRDTOrderBook.new n).replay ops).getOrderCount = (referenceOrders S).card ∧
          ∀ depth, (((CRDTOrderBook.new n).replay ops).getSnapshot depth).bids.map
              PriceLevel.quote =
              (groupedSums (· ≥ ·) Order.price Order.quantity
                {o ∈ referenceOrders S | o.side = Side.buy}).take depth.toNat ∧
            (((CRDTOrderBook.new n).replay ops).getSnapshot depth).asks.map PriceLevel.quote =
              (groupedSums (· ≤ ·) Order.price Order.quantity
                {o ∈ referenceOrders S | o.side ≠ Side.buy}).take depth.toNat := by
  intro hall
  obtain ⟨c, hc, hlog⟩ : ∃ c : Cluster ℤ, (clusterSystem ℤ).Reachable c ∧
      (c.replicas [49]).opLog = [zeroAdd] :=
    ⟨_, Reachable.init (T := clusterSystem ℤ) |>.step ([49], .addOrder Side.buy 100 0 [97] [1])
      ⟨Cluster.init_freshOrderId _, Cluster.init_freshOpId _⟩, rfl⟩
  have hS : ∀ op ∈ ({zeroAdd} : Finset (Operation ℤ)), ∃ n, op ∈ (c.replicas n).opLog :=
    fun op hop => ⟨[49], by rw [hlog, Finset.mem_singleton.mp hop]; exact List.mem_cons_self⟩
  have hcausal : CausallyOrdered [zeroAdd] := by
    intro before op after heq hcancel
    have hop : op ∈ [zeroAdd] := heq ▸ List.mem_append_right _ List.mem_cons_self
    exact absurd (List.mem_singleton.mp hop ▸ hcancel) (by decide)
  have hmem (op : Operation ℤ) : op ∈ [zeroAdd] ↔ op ∈ ({zeroAdd} : Finset (Operation ℤ)) :=
    List.mem_singleton.trans Finset.mem_singleton.symm
  have hcount := (hall c hc {zeroAdd} hS [zeroAdd] hmem hcausal [50]).2.2.1
  have hreference : zeroAdd.order ∈ referenceOrders {zeroAdd} := by
    refine mem_referenceOrders.mpr ⟨⟨zeroAdd, Finset.mem_singleton_self _, rfl, rfl⟩, ?_⟩
    intro op hop hcancel
    exact absurd (Finset.mem_singleton.mp hop ▸ hcancel) (by decide)
  have hnone : ((CRDTOrderBook.new [50]).replay [zeroAdd]).getOrderCount = 0 := by decide
  rw [hnone] at hcount
  exact absurd (Finset.card_pos.mpr ⟨_, hreference⟩) (by omega)

end Convergence
