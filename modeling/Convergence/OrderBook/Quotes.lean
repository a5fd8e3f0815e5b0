import Convergence.OrderBook.Depth
import Mathlib.Algebra.Order.BigOperators.Group.List

/-!
# Quotes, snapshots and orders

`get_best_bid`, `get_best_ask` and `get_snapshot` read the price maps and the totals kept in the
levels, `get_all_orders` reads the order table. In every state of every run in which orders enter
active, and none under the id of an order that can still be filled, the two agree: a snapshot lists
the best prices of the active orders of a side, each with the sum of what remains of them.

An order that enters flagged makes a level without an active order, and `add_order` under the id of
an active order leaves the replaced quantity in the total, so both conditions are needed.

## Main definitions

* `ShowsBest`: a list of levels is the best part of one side of a list of orders.
* `OrderBook.QuotesAgree`.
* `unfilledSystem`, `renewingSystem`: the runs of a book whose orders enter without fills, and of
  one whose orders also enter active and under ids that are free.

## Main results

* `showsBest_take`: a prefix of the sums by price of the orders of a side.
* `OrderBook.quotesAgree_of_reachable`.
-/

namespace Convergence

open TransitionSystem

variable {P : Type*}

/-! ### One side -/

section Side

variable [DecidableEq P] (own : Side → Prop) [DecidablePred own]

/-- The distinct prices at which the list has an order of the side. -/
def sidePrices (orders : List (Order P)) : Finset P :=
  ((orders.filter fun o => own o.side).map Order.price).toFinset

/-- The sum of what remains of the orders of the side at a price. -/
def sideTotal (orders : List (Order P)) (p : P) : ℤ :=
  ((orders.filter fun o => own o.side ∧ o.price = p).map Order.remaining).sum

/-- The levels list the best prices of the orders of the side, best price first, `depth` of them as
far as there are so many, each with the sum of what remains of its orders. -/
structure ShowsBest (r : P → P → Prop) (orders : List (Order P)) (depth : ℤ)
    (levels : List (PriceLevel P)) : Prop where
  length_eq : (levels.length : ℤ) = min (max depth 0) (sidePrices own orders).card
  sorted : (levels.map PriceLevel.price).Pairwise r
  price_mem : ∀ level ∈ levels, level.price ∈ sidePrices own orders
  best : ∀ level ∈ levels, ∀ p ∈ sidePrices own orders, p ∉ levels.map PriceLevel.price →
    r level.price p
  total_eq : ∀ level ∈ levels, level.totalQuantity = sideTotal own orders level.price
  total_pos : ∀ level ∈ levels, 0 < level.totalQuantity

variable {own} {orders : List (Order P)}

theorem mem_sidePrices {p : P} :
    p ∈ sidePrices own orders ↔ ∃ o ∈ orders, own o.side ∧ o.price = p := by
  simp only [sidePrices, List.mem_toFinset, List.mem_map, List.mem_filter, decide_eq_true_eq,
    and_assoc]

theorem sideTotal_eq_sum (hnd : orders.Nodup) (p : P) : sideTotal own orders p =
    ∑ o ∈ {o ∈ orders.toFinset | own o.side} with o.price = p, o.remaining := by
  have hset : {o ∈ {o ∈ orders.toFinset | own o.side} | o.price = p} =
      (orders.filter fun o => own o.side ∧ o.price = p).toFinset := by
    ext o
    simp [and_assoc]
  rw [hset, List.sum_toFinset _ (hnd.filter _), sideTotal]

/-- The sum is positive where there is an order and something remains of each. -/
theorem sideTotal_pos (hpos : ∀ o ∈ orders, 0 < o.remaining) {p : P}
    (hp : p ∈ sidePrices own orders) : 0 < sideTotal own orders p := by
  obtain ⟨o, ho, hs, hop⟩ := mem_sidePrices.mp hp
  refine List.sum_pos _ (fun n hn => ?_) fun hnil => ?_
  · obtain ⟨x, hx, rfl⟩ := List.mem_map.mp hn
    exact hpos x (List.mem_filter.mp hx).1
  · have hmem : o ∈ orders.filter fun o => own o.side ∧ o.price = p :=
      List.mem_filter.mpr ⟨ho, by simpa using ⟨hs, hop⟩⟩
    rw [List.map_eq_nil_iff.mp hnil] at hmem
    exact absurd hmem List.not_mem_nil

variable {r le : P → P → Prop} [DecidableRel le] [IsTrans P le] [Std.Antisymm le] [Std.Total le]
  {levels : List (PriceLevel P)}

theorem map_price_toFinset (hquotes : levels.map PriceLevel.quote =
      groupedSums le Order.price Order.remaining {o ∈ orders.toFinset | own o.side}) :
    (levels.map PriceLevel.price).toFinset = sidePrices own orders := by
  have hkeys := congrArg (List.map Prod.fst) hquotes
  rw [keys_groupedSums, List.map_map] at hkeys
  change levels.map PriceLevel.price = _ at hkeys
  rw [hkeys, Finset.sort_toFinset]
  ext p
  simp [mem_sidePrices, and_assoc]

/-- There is no level exactly when there is no order of the side. -/
theorem levels_eq_nil_iff (hquotes : levels.map PriceLevel.quote =
      groupedSums le Order.price Order.remaining {o ∈ orders.toFinset | own o.side}) :
    levels = [] ↔ ∀ o ∈ orders, ¬ own o.side := by
  have hprices := map_price_toFinset hquotes
  constructor
  · rintro rfl o ho hs
    have hmem : o.price ∈ sidePrices own orders := mem_sidePrices.mpr ⟨o, ho, hs, rfl⟩
    rw [← hprices] at hmem
    exact absurd (List.mem_toFinset.mp hmem) List.not_mem_nil
  · intro hnone
    refine List.eq_nil_iff_forall_not_mem.mpr fun level hlevel => ?_
    have hmem : level.price ∈ (levels.map PriceLevel.price).toFinset :=
      List.mem_toFinset.mpr (List.mem_map_of_mem hlevel)
    rw [hprices] at hmem
    obtain ⟨o, ho, hs, -⟩ := mem_sidePrices.mp hmem
    exact hnone o ho hs

/-- The first levels of a side that shows its orders. -/
theorem showsBest_take (hnd : orders.Nodup) (hpos : ∀ o ∈ orders, 0 < o.remaining)
    (hquotes : levels.map PriceLevel.quote =
      groupedSums le Order.price Order.remaining {o ∈ orders.toFinset | own o.side})
    (hsorted : (levels.map PriceLevel.price).Pairwise r) (hirrefl : Std.Irrefl r) (depth : ℤ) :
    ShowsBest own r orders depth (levels.take depth.toNat) := by
  have hprices := map_price_toFinset hquotes
  have hmem (level : PriceLevel P) (hlevel : level ∈ levels) :
      level.price ∈ sidePrices own orders := by
    rw [← hprices]
    exact List.mem_toFinset.mpr (List.mem_map_of_mem hlevel)
  have htotal (level : PriceLevel P) (hlevel : level ∈ levels) :
      level.totalQuantity = sideTotal own orders level.price := by
    have hquote : (level.price, level.totalQuantity) ∈ levels.map PriceLevel.quote :=
      List.mem_map_of_mem hlevel
    rw [hquotes] at hquote
    rw [sideTotal_eq_sum hnd]
    exact (mem_groupedSums.mp hquote).2
  have hcard : (sidePrices own orders).card = levels.length := by
    have hdistinct : (levels.map PriceLevel.price).Nodup := hsorted.imp fun {a b} hab heq => by
      subst heq
      exact hirrefl.irrefl a hab
    rw [← hprices, List.toFinset_card_of_nodup hdistinct, List.length_map]
  refine ⟨?_, ?_, fun level hlevel => hmem level (List.mem_of_mem_take hlevel), ?_, ?_, ?_⟩
  · rw [List.length_take, hcard]
    omega
  · rw [List.map_take]
    exact hsorted.sublist (List.take_sublist _ _)
  · -- A price that is not among the first levels is behind them.
    intro level hlevel p hp hnot
    rw [← hprices, List.mem_toFinset] at hp
    rw [List.map_take] at hnot
    rw [← List.take_append_drop depth.toNat (levels.map PriceLevel.price)] at hp hsorted
    refine (List.pairwise_append.mp hsorted).2.2 _ ?_ p ((List.mem_append.mp hp).resolve_left hnot)
    rw [← List.map_take]
    exact List.mem_map_of_mem hlevel
  · exact fun level hlevel => htotal level (List.mem_of_mem_take hlevel)
  · intro level hlevel
    rw [htotal level (List.mem_of_mem_take hlevel)]
    exact sideTotal_pos hpos (hmem level (List.mem_of_mem_take hlevel))

end Side

/-! ### The runs of a book -/

section Runs

variable [LinearOrder P]

/-- Orders enter without fills: `remaining = quantity > 0`. -/
def BookOp.Unfilled : BookOp P → Prop
  | addOrder o => o.remaining = o.quantity ∧ 0 < o.quantity
  | insertReplicatedOrder o => o.remaining = o.quantity ∧ 0 < o.quantity
  | _ => True

/-- Orders enter without fills and active, by `add_order` under an id that no active order has. -/
def BookOp.Renewing (b : OrderBook P) : BookOp P → Prop
  | addOrder o => o.IsNew ∧ isActiveAt b.orders o.orderId = false
  | insertReplicatedOrder o => o.IsNew
  | _ => True

/-- The runs of a book whose orders enter without fills. -/
def unfilledSystem (P : Type*) [LinearOrder P] : TransitionSystem (OrderBook P) (BookOp P) where
  init := OrderBook.new
  enabled _ op := op.Unfilled
  step := BookOp.apply

/-- The runs of a book whose orders enter active, under ids that no active order has. -/
def renewingSystem (P : Type*) [LinearOrder P] : TransitionSystem (OrderBook P) (BookOp P) where
  init := OrderBook.new
  enabled := BookOp.Renewing
  step := BookOp.apply

namespace OrderBook

variable {b : OrderBook P}

/-- The snapshots and the best quotes of a book agree with its active orders. -/
structure QuotesAgree (b : OrderBook P) : Prop where
  bids : ∀ depth, ShowsBest IsBid BidOrder b.getAllOrders depth (b.getSnapshot depth).bids
  asks : ∀ depth, ShowsBest IsAsk AskOrder b.getAllOrders depth (b.getSnapshot depth).asks
  best_bid : ∀ depth, 0 < depth → b.getBestBid = (b.getSnapshot depth).bids.head?
  best_ask : ∀ depth, 0 < depth → b.getBestAsk = (b.getSnapshot depth).asks.head?
  no_bid : b.getBestBid = none ↔ ∀ o ∈ b.getAllOrders, ¬ IsBid o.side
  no_ask : b.getBestAsk = none ↔ ∀ o ∈ b.getAllOrders, ¬ IsAsk o.side

theorem Inv.apply_of_renewing (h : b.Inv) (op : BookOp P) (hop : op.Renewing b) :
    (op.apply b).Inv := by
  cases op with
  | addOrder o =>
    obtain ⟨⟨hr, hq, hc⟩, hfree⟩ := hop
    refine h.place_of_flagged (fun x hx => ?_) hc (hr ▸ hq)
    cases hxc : x.isCancelled with
    | true => rfl
    | false =>
      rw [isActiveAt_iff.mpr ⟨x, hx, hxc, h.pos _ x hx hxc⟩] at hfree
      cases hfree
  | insertReplicatedOrder o =>
    obtain ⟨hr, hq, hc⟩ := hop
    exact h.insertReplicatedOrder hc (hr ▸ hq)
  | cancelOrder id => exact h.cancelOrder id
  | applyReplicatedCancel id => exact h.applyReplicatedCancel id
  | matchMarketOrder side q => exact h.matchMarketOrder side q

theorem remaining_pos_of_mem_getAllOrders {o : Order P} (ho : o ∈ b.getAllOrders) :
    0 < o.remaining := by
  have hact := (List.mem_filter.mp ho).2
  simp only [Order.isActive, Bool.and_eq_true, decide_eq_true_eq] at hact
  exact hact.2

theorem Inv.quotes_bids (h : b.Inv) : (b.bids.entries.map Sigma.snd).map PriceLevel.quote =
    groupedSums (· ≥ ·) Order.price Order.remaining
      {o ∈ b.getAllOrders.toFinset | IsBid o.side} := by
  rw [List.map_map]
  exact h.bids_eq_bidQuotes

theorem Inv.quotes_asks (h : b.Inv) : (b.asks.entries.map Sigma.snd).map PriceLevel.quote =
    groupedSums (· ≤ ·) Order.price Order.remaining
      {o ∈ b.getAllOrders.toFinset | IsAsk o.side} := by
  rw [List.map_map]
  exact h.asks_eq_askQuotes

omit [LinearOrder P] in
/-- The best quote of a side heads its levels, as far as a snapshot lists any. -/
private theorem head?_take_levels {r : P → P → Prop} (levels : SortedMap r (PriceLevel P))
    {depth : ℤ} (hdepth : 0 < depth) : levels.entries.head?.map Sigma.snd =
      ((levels.entries.map Sigma.snd).take depth.toNat).head? := by
  rw [List.head?_take, if_neg (by omega), List.head?_map]

omit [LinearOrder P] in
private theorem best_eq_none_iff {r : P → P → Prop} (levels : SortedMap r (PriceLevel P)) :
    levels.entries.head?.map Sigma.snd = none ↔ levels.entries.map Sigma.snd = [] := by
  rw [Option.map_eq_none_iff, List.head?_eq_none_iff, List.map_eq_nil_iff]

theorem Inv.quotesAgree (h : b.Inv) : b.QuotesAgree where
  bids := showsBest_take (nodup_getAllOrders h.keyed)
    (fun _ => remaining_pos_of_mem_getAllOrders) h.quotes_bids h.bids.sorted_prices inferInstance
  asks := showsBest_take (nodup_getAllOrders h.keyed)
    (fun _ => remaining_pos_of_mem_getAllOrders) h.quotes_asks h.asks.sorted_prices inferInstance
  best_bid _ := head?_take_levels b.bids
  best_ask _ := head?_take_levels b.asks
  no_bid := (best_eq_none_iff b.bids).trans (levels_eq_nil_iff h.quotes_bids)
  no_ask := (best_eq_none_iff b.asks).trans (levels_eq_nil_iff h.quotes_asks)

/-- **Quotes and snapshots.** In every state of every run in which orders enter active and under ids
that no active order has, snapshots and best quotes agree with the active orders. -/
theorem quotesAgree_of_reachable (h : (renewingSystem P).Reachable b) : b.QuotesAgree :=
  (h.invariant (T := renewingSystem P) Inv.new fun _ op _ hb hop =>
    hb.apply_of_renewing op hop).quotesAgree

/-- A bid is placed, cancelled, and placed again under its id. -/
theorem quotesAgree_placed_again :
    ((((OrderBook.new : OrderBook ℤ).addOrder
      ⟨[97], [49], Side.buy, 100, 4, 4, 1, false⟩).1.cancelOrder [97]).1.addOrder
        ⟨[97], [49], Side.buy, 101, 2, 2, 2, false⟩).1.QuotesAgree := by
  have hfirst := TransitionSystem.Reachable.init (T := renewingSystem ℤ) |>.step
    (BookOp.addOrder ⟨[97], [49], Side.buy, 100, 4, 4, 1, false⟩) ⟨⟨rfl, by decide, rfl⟩, rfl⟩
  have hcancelled := hfirst.step (BookOp.cancelOrder [97]) trivial
  exact quotesAgree_of_reachable (hcancelled.step
    (BookOp.addOrder ⟨[97], [49], Side.buy, 101, 2, 2, 2, false⟩) ⟨⟨rfl, by decide, rfl⟩, rfl⟩)

/-- An order that enters flagged makes a level without an active order; an order under the id of an
active one leaves the quantity of that in the total. -/
theorem not_quotesAgree_flagged_or_replaced :
    ((unfilledSystem ℤ).Reachable ((OrderBook.new : OrderBook ℤ).insertReplicatedOrder
        ⟨[97], [49], Side.buy, 100, 4, 4, 1, true⟩) ∧
      ¬ ((OrderBook.new : OrderBook ℤ).insertReplicatedOrder
        ⟨[97], [49], Side.buy, 100, 4, 4, 1, true⟩).QuotesAgree) ∧
    (unfilledSystem ℤ).Reachable (((OrderBook.new : OrderBook ℤ).addOrder
        ⟨[97], [49], Side.buy, 100, 4, 4, 1, false⟩).1.addOrder
        ⟨[97], [49], Side.buy, 100, 4, 4, 2, false⟩).1 ∧
      ¬ (((OrderBook.new : OrderBook ℤ).addOrder
        ⟨[97], [49], Side.buy, 100, 4, 4, 1, false⟩).1.addOrder
        ⟨[97], [49], Side.buy, 100, 4, 4, 2, false⟩).1.QuotesAgree := by
  have hinit := TransitionSystem.Reachable.init (T := unfilledSystem ℤ)
  refine ⟨⟨?_, fun h => ?_⟩, ?_, fun h => ?_⟩
  · exact hinit.step (BookOp.insertReplicatedOrder ⟨[97], [49], Side.buy, 100, 4, 4, 1, true⟩)
      ⟨rfl, by decide⟩
  · have hnone := h.no_bid.mpr nofun
    cases hnone
  · exact (hinit.step (BookOp.addOrder ⟨[97], [49], Side.buy, 100, 4, 4, 1, false⟩)
      ⟨rfl, by decide⟩).step (BookOp.addOrder ⟨[97], [49], Side.buy, 100, 4, 4, 2, false⟩)
      ⟨rfl, by decide⟩
  · have htotal := (h.bids 1).total_eq ⟨100, 8, [[97], [97]]⟩ List.mem_cons_self
    cases htotal

end OrderBook

end Runs

end Convergence
