import Convergence.Crdt.ClientRuns

/-!
# What a market order tells the other replicas

`local_market_order` means to log a cancellation for every order it has filled to the end, so that
the other replicas take it off their books too. It never does: it looks for filled orders that have
left `orders_`, and none does. The log is right only when there is nothing to tell, that is, when
the first order in line is not used up.

## Main definitions

* `FullyFilled`: an order whose remaining quantity drops to zero.
* `CRDTOrderBook.FillsReachLog`: what the log should say.
* `FrontOutlasts`: the first order in line is larger than the market order.

## Main results

* `SideInv.not_fullyFilled_iff`.
* `Cluster.fillsReachLog_iff`.
-/

namespace Convergence

open TransitionSystem

variable {P : Type*}

/-- The remaining quantity of the order `id` drops to zero. -/
def FullyFilled (before after : OrderTable P) (id : Str) : Prop :=
  ∃ o o', before.lookup id = some o ∧ after.lookup id = some o' ∧ 0 < o.remaining ∧
    o'.remaining = 0

/-- There is no best level, or the first order in its queue is larger than `q`. -/
def FrontOutlasts (orders : OrderTable P) (best : Option (PriceLevel P)) (q : ℤ) : Prop :=
  ∀ level ∈ best, ∀ id ∈ level.orders.head?, q < remainingOf orders id

theorem not_fullyFilled_self (orders : OrderTable P) (id : Str) :
    ¬ FullyFilled orders orders id := by
  rintro ⟨o, o', ho, ho', hpos, hzero⟩
  obtain rfl := Option.some.inj (ho.symm.trans ho')
  omega

/-! ### The first order in line -/

section Front

variable {e : (_ : P) × PriceLevel P} {levels : List ((_ : P) × PriceLevel P)} {s : MatchState P}
  {id : Str} {queue : List Str} {o : Order P}

theorem matchLevels_stop (levels : List ((_ : P) × PriceLevel P)) (h : s.remaining ≤ 0) :
    matchLevels levels s = (levels, s) := by
  cases levels with
  | nil => rfl
  | cons e levels => simp [matchLevels, h.not_gt]

theorem orders_matchLevels_cons (h : 0 < s.remaining) :
    (matchLevels (e :: levels) s).2.orders =
      (matchLevels levels (matchQueue e.2.orders e.2.totalQuantity s).2.2).2.orders := by
  rw [snd_matchLevels_cons, if_pos h]

/-- A larger first order is reduced, and nothing else happens. -/
theorem orders_matchLevels_of_lt (he : e.2.orders = id :: queue)
    (ho : s.orders.lookup id = some o) (hc : o.isCancelled = false) (hrem : 0 < s.remaining)
    (h : s.remaining < o.remaining) :
    (matchLevels (e :: levels) s).2.orders = s.orders.insert id (o.lessBy s.remaining) := by
  rw [orders_matchLevels_cons hrem, he, matchQueue_cons_lessBy _ hrem ho hc h, matchLevels_stop]
  · rfl
  · exact (sub_self s.remaining).le

/-- A first order that is not larger is used up. -/
theorem lookup_matchLevels_of_le (he : e.2.orders = id :: queue)
    (hnd : (queuedIds (e :: levels)).Nodup)
    (hne : ∀ e' ∈ e :: levels, e'.2.orders ≠ [])
    (hact : ∀ a ∈ queuedIds (e :: levels), isActiveAt s.orders a = true)
    (ho : s.orders.lookup id = some o) (hc : o.isCancelled = false) (hr : 0 < o.remaining)
    (h : o.remaining ≤ s.remaining) :
    (matchLevels (e :: levels) s).2.orders.lookup id = some o.usedUp := by
  have hids : queuedIds (e :: levels) = id :: (queue ++ queuedIds levels) := by
    rw [queuedIds, List.flatMap_cons, he]
    rfl
  rw [hids] at hnd hact
  obtain ⟨hid, hnd⟩ := List.nodup_cons.mp hnd
  obtain ⟨hnd₁, hnd₂, hdisj⟩ := List.nodup_append'.mp hnd
  rw [List.mem_append, not_or] at hid
  set s₁ := s.record id o o.remaining o.usedUp with hs₁
  -- Everything behind the first order is still active, and none of it is that order.
  have hact₁ : ∀ a ∈ queue ++ queuedIds levels, isActiveAt s₁.orders a = true := fun a ha => by
    have hne' : a ≠ id := by
      rintro rfl
      exact (List.mem_append.mp ha).elim hid.1 hid.2
    have hsame : s₁.orders.lookup a = s.orders.lookup a := AList.lookup_insert_ne hne'
    exact (isActiveAt_congr hsame).trans (hact a (List.mem_cons_of_mem _ ha))
  obtain ⟨-, -, hm⟩ := matchQueue_spec queue (e.2.totalQuantity - o.remaining) s₁ hnd₁ fun a ha =>
    hact₁ a (List.mem_append_left _ ha)
  set s₂ := (matchQueue queue (e.2.totalQuantity - o.remaining) s₁).2.2 with hs₂
  obtain ⟨-, hm₂⟩ := matchLevels_spec levels s₂ hnd₂
    (fun e' he' => hne e' (List.mem_cons_of_mem _ he')) fun a ha => by
      rw [isActiveAt_congr (hm.frame a fun hq => hdisj hq ha)]
      exact hact₁ a (List.mem_append_right _ ha)
  rw [orders_matchLevels_cons (hr.trans_le h), he,
    matchQueue_cons_usedUp _ (hr.trans_le h) ho hc h, ← hs₁, ← hs₂, hm₂.frame id hid.2,
    hm.frame id hid.1]
  exact AList.lookup_insert _

/-- On levels with non-empty queues of active orders, all distinct, nothing is filled to the end if
and only if the first order in line is larger than the market order. -/
theorem matchLevels_not_fullyFilled_iff (levels : List ((_ : P) × PriceLevel P))
    (s : MatchState P) (hnd : (queuedIds levels).Nodup) (hne : ∀ e ∈ levels, e.2.orders ≠ [])
    (hact : ∀ a ∈ queuedIds levels, isActiveAt s.orders a = true) :
    (∀ id, ¬ FullyFilled s.orders (matchLevels levels s).2.orders id) ↔
      FrontOutlasts s.orders (levels.head?.map Sigma.snd) s.remaining := by
  cases levels with
  | nil => exact iff_of_true (not_fullyFilled_self s.orders) fun _ hl => by simp at hl
  | cons e es =>
    obtain ⟨id, queue, he⟩ := List.exists_cons_of_ne_nil (hne e List.mem_cons_self)
    have hid : id ∈ queuedIds (e :: es) :=
      List.mem_flatMap.mpr ⟨e, List.mem_cons_self, he ▸ List.mem_cons_self⟩
    obtain ⟨o, ho, hc, hr⟩ := isActiveAt_iff.mp (hact id hid)
    have hfront : FrontOutlasts s.orders ((e :: es).head?.map Sigma.snd) s.remaining ↔
        s.remaining < o.remaining := by
      simp [FrontOutlasts, he, remainingOf_of_lookup ho]
    rw [hfront]
    constructor
    · intro hnone
      by_contra hle
      have hused := lookup_matchLevels_of_le he hnd hne hact ho hc hr (not_lt.mp hle)
      exact hnone id ⟨o, o.usedUp, ho, hused, hr, rfl⟩
    · intro hlt a
      rcases le_or_gt s.remaining 0 with hrem | hrem
      · rw [matchLevels_stop _ hrem]
        exact not_fullyFilled_self s.orders a
      · rw [orders_matchLevels_of_lt he ho hc hrem hlt]
        rintro ⟨x, x', hx, hx', hxpos, hzero⟩
        rw [lookup_insert_eq] at hx'
        split_ifs at hx' with ha
        · rw [← Option.some.inj hx', Order.remaining_lessBy] at hzero
          omega
        · obtain rfl := Option.some.inj (hx.symm.trans hx')
          omega

end Front

/-- On a consistent side nothing is filled to the end if and only if the first order in line is
larger than the market order. -/
theorem SideInv.not_fullyFilled_iff [DecidableEq P] {r : P → P → Prop} [Std.Irrefl r]
    {orders : OrderTable P} {levels : SortedMap r (PriceLevel P)} {own : Side → Prop}
    (h : SideInv orders levels own)
    (hpos : ∀ id o, orders.lookup id = some o → o.isCancelled = false → 0 < o.remaining) (q : ℤ) :
    (∀ id, ¬ FullyFilled orders (Convergence.matchSide levels ⟨orders, q, []⟩).2.orders id) ↔
      FrontOutlasts orders (levels.entries.head?.map Sigma.snd) q := by
  have hnd := h.represents.nodup_queuedIds h.nodup fun _ _ _ => h.price_unique
  have hne : ∀ e ∈ levels.entries, e.2.orders ≠ [] := fun e he => by
    rw [(h.represents.of_mem he).1]
    exact (h.represents.of_mem he).2
  exact matchLevels_not_fullyFilled_iff levels.entries ⟨orders, q, []⟩ hnd hne
    (h.isActiveAt_queuedIds hpos)

variable [LinearOrder P]

/-- The side a market order walks, best price first. -/
def OrderBook.bestOpposite (b : OrderBook P) (side : Side) : Option (PriceLevel P) :=
  if side = Side.buy then b.getBestAsk else b.getBestBid

theorem OrderBook.Inv.not_fullyFilled_iff {b : OrderBook P} (h : b.Inv) (side : Side) (q : ℤ) :
    (∀ id, ¬ FullyFilled b.orders (b.matchMarketOrder side q).1.orders id) ↔
      FrontOutlasts b.orders (b.bestOpposite side) q := by
  rw [OrderBook.matchMarketOrder, bestOpposite]
  split_ifs
  · exact h.asks.not_fullyFilled_iff h.pos q
  · exact h.bids.not_fullyFilled_iff h.pos q

/-! ### The log -/

namespace CRDTOrderBook

/-- The entries a market order appends to the log. -/
def newEntries (r : CRDTOrderBook P) (side : Side) (q : ℤ) (gen : ℕ → Str × Uninit P) :
    List (Operation P) :=
  (r.localMarketOrder side q gen).1.opLog.drop r.opLog.length

/-- A market order logs one cancellation of every order it fills to the end and of no other order,
and a replica that held the same orders no longer shows the filled ones after it has applied the new
entries. -/
structure FillsReachLog (r : CRDTOrderBook P) (side : Side) (q : ℤ) (gen : ℕ → Str × Uninit P) :
    Prop where
  logged : ∀ id,
    FullyFilled r.book.orders (r.localMarketOrder side q gen).1.book.orders id →
      (r.newEntries side q gen).countP (fun op => op.IsCancel ∧ op.cancelOrderId = id) = 1
  notLogged : ∀ id,
    ¬ FullyFilled r.book.orders (r.localMarketOrder side q gen).1.book.orders id →
      (r.newEntries side q gen).countP (fun op => op.IsCancel ∧ op.cancelOrderId = id) = 0
  followed : ∀ s : CRDTOrderBook P,
    (∀ id, s.book.orders.lookup id = r.book.orders.lookup id) →
    (∀ op ∈ r.newEntries side q gen, op.opId ∉ s.seenOps) → ∀ id,
      FullyFilled r.book.orders (r.localMarketOrder side q gen).1.book.orders id →
        isActiveAt (s.replay (r.newEntries side q gen)).book.orders id = false

/-- Since a market order logs nothing, the log is right if and only if nothing is filled to the
end. -/
theorem fillsReachLog_iff_not_fullyFilled {r : CRDTOrderBook P} (h : r.WellFormed) (side : Side)
    (q : ℤ) (gen : ℕ → Str × Uninit P) : r.FillsReachLog side q gen ↔
      ∀ id, ¬ FullyFilled r.book.orders (r.book.matchMarketOrder side q).1.orders id := by
  have heq := localMarketOrder_eq h.keyed side q gen
  have hnew : r.newEntries side q gen = [] := by
    rw [newEntries, heq, opLog_ticked, List.drop_length]
  have hbook : (r.localMarketOrder side q gen).1.book = (r.book.matchMarketOrder side q).1 := by
    rw [heq, book_ticked]
  constructor
  · intro hlog id hfull
    have hone := hlog.logged id (hbook ▸ hfull)
    rw [hnew, List.countP_nil] at hone
    omega
  · intro hnone
    rw [← hbook] at hnone
    refine ⟨fun id hfull => absurd hfull (hnone id), fun id _ => ?_,
      fun s _ _ id hfull => absurd hfull (hnone id)⟩
    rw [hnew, List.countP_nil]

end CRDTOrderBook

/-- **Fills and the log.** In every reachable state, a market order reaches the log as it should if
and only if the best level of the other side is missing or its first order is larger than the
quantity of the market order. -/
theorem Cluster.fillsReachLog_iff {c : Cluster P} (h : (clientSystem P).Reachable c) (n : Str)
    (side : Side) (q : ℤ) (gen : ℕ → Str × Uninit P) :
    (c.replicas n).FillsReachLog side q gen ↔
      FrontOutlasts (c.replicas n).book.orders ((c.replicas n).book.bestOpposite side) q := by
  have hc := Cluster.clientInv_of_reachable h
  rw [CRDTOrderBook.fillsReachLog_iff_not_fullyFilled (hc.wellFormed n),
    (hc.book n).not_fullyFilled_iff]

/-- One ask and a smaller market buy. -/
theorem Cluster.fillsReachLog_iff_smaller :
    let r : CRDTOrderBook ℤ := ((CRDTOrderBook.new [49]).localAddOrder Side.sell 100 5 [97] [1]).1
    r.FillsReachLog Side.buy 3 (fun _ => ([2], ⟨Side.buy, 0, 0, 0, 0⟩)) ↔
      FrontOutlasts r.book.orders (r.book.bestOpposite Side.buy) 3 := by
  have h := Reachable.init (T := clientSystem ℤ) |>.step
    ([49], .addOrder Side.sell 100 5 [97] [1])
    ⟨⟨Cluster.init_freshOrderId _, Cluster.init_freshOpId _⟩, show (0 : ℤ) < 5 by decide⟩
  exact Cluster.fillsReachLog_iff h [49] Side.buy 3 _

/-- One ask and a market buy of the same size: the ask is filled and nothing is logged. -/
theorem not_fillsReachLog_of_reachable :
    ¬ ∀ c : Cluster ℤ, (clientSystem ℤ).Reachable c → ∀ n side q gen,
      c.Enabled (n, .marketOrder side q gen) → (c.replicas n).FillsReachLog side q gen := by
  intro hall
  have h := Reachable.init (T := clientSystem ℤ) |>.step
    ([49], .addOrder Side.sell 100 5 [97] [1])
    ⟨⟨Cluster.init_freshOrderId _, Cluster.init_freshOpId _⟩, show (0 : ℤ) < 5 by decide⟩
  let gen : ℕ → Str × Uninit ℤ := fun i => (List.replicate (i + 2) 0, ⟨Side.buy, 0, 0, 0, 0⟩)
  have hinj : Function.Injective fun i => (gen i).1 := fun i j hij => by
    simpa [gen] using congrArg List.length hij
  have hfresh : ∀ i, Cluster.FreshOpId _ (gen i).1 := fun i => by
    refine Cluster.freshOpId_of_history (Cluster.clientInv_of_reachable h).toInv fun op hop => ?_
    obtain rfl := List.mem_singleton.mp hop
    intro hid
    have hlen : ([1] : Str).length = (List.replicate (i + 2) (0 : UInt8)).length :=
      congrArg List.length hid
    rw [List.length_replicate, List.length_singleton] at hlen
    omega
  have hlog := hall _ h [49] Side.buy 5 gen ⟨hinj, hfresh⟩
  have hcount := hlog.logged [97] ⟨_, _, rfl, rfl, by decide, by decide⟩
  exact absurd hcount (by decide)

end Convergence
