import Convergence.OrderBook.GreedyMatching
import Convergence.OrderBook.Quotes

/-!
# Market orders in price-time priority

The reference for a market order: the active orders of the other side, best price first and in queue
order within a price, served greedily with the quantity of the aggressor. In every book that orders
with something remaining have made, none of them by `add_order` under an id that was still queued, a
market order of any side and any quantity does what the reference says.

An order under an id that is still queued takes over the place of the order that it overwrites, at
the price of that order (`OrderBook.not_matchesGreedily_replaced`).

## Main definitions

* `OrderBook.priorityList`: the orders that a market order can fill, in order.
* `restingSystem`: the runs of a book whose orders enter with something remaining.
* `OrderBook.MatchesGreedily`.

## Main results

* `OrderBook.matchesGreedily_of_reachable`.
-/

namespace Convergence

open TransitionSystem Greedy

variable {P : Type*} [LinearOrder P]

/-- A market order of the side `aggressor` is matched against orders of the side `s`. -/
def Opposes (aggressor s : Side) : Prop := if aggressor = Side.buy then IsAsk s else IsBid s

namespace OrderBook

variable {b : OrderBook P} {side : Side} {q : ℤ}

/-- The levels that a market order walks. -/
def oppositeLevels (b : OrderBook P) (side : Side) : List ((_ : P) × PriceLevel P) :=
  if side = Side.buy then b.asks.entries else b.bids.entries

/-- The queue at a price on the side that a market order walks. -/
def oppositeQueue (b : OrderBook P) (side : Side) (p : P) : List Str :=
  if side = Side.buy then queueAt b.asks p else queueAt b.bids p

/-- The active orders of the side that a market order walks, best price first and in queue order
within a price. -/
def priorityList (b : OrderBook P) (side : Side) : List (Order P) :=
  liveOrders b.orders (queuedIds (b.oppositeLevels side))

/-- A market order is the outer loop on the levels of the other side. -/
theorem matchMarketOrder_eq (b : OrderBook P) (side : Side) (q : ℤ) :
    (b.matchMarketOrder side q).1.oppositeLevels side =
        (matchLevels (b.oppositeLevels side) ⟨b.orders, q, []⟩).1 ∧
      (b.matchMarketOrder side q).1.orders =
        (matchLevels (b.oppositeLevels side) ⟨b.orders, q, []⟩).2.orders ∧
      (b.matchMarketOrder side q).2 =
        (matchLevels (b.oppositeLevels side) ⟨b.orders, q, []⟩).2.fills := by
  by_cases hs : side = Side.buy
  · simp only [matchMarketOrder, oppositeLevels, if_pos hs]
    exact ⟨rfl, rfl, rfl⟩
  · simp only [matchMarketOrder, oppositeLevels, if_neg hs]
    exact ⟨rfl, rfl, rfl⟩

/-- `match_market_order` of the side `side` and the quantity `q` on the book `b`, against the
reference. -/
structure MatchesGreedily (b : OrderBook P) (side : Side) (q : ℤ) : Prop where
  /-- The loops end when they test their conditions often enough. -/
  terminates : ∃ n, ∀ turns, n ≤ turns →
    matchLevelsLoop turns (b.oppositeLevels side) ⟨b.orders, q, []⟩ =
      some (matchLevels (b.oppositeLevels side) ⟨b.orders, q, []⟩)
  /-- The reference lists the active orders of the other side. -/
  listed : ∀ o, o ∈ b.priorityList side ↔
    b.orders.lookup o.orderId = some o ∧ o.isActive = true ∧ Opposes side o.side
  distinct : ((b.priorityList side).map Order.orderId).Nodup
  /-- It lists them by price, the lowest ask or the highest bid first. -/
  by_price : (b.priorityList side).Pairwise fun o o' =>
    if side = Side.buy then o.price ≤ o'.price else o'.price ≤ o.price
  /-- It lists them in queue order within a price. -/
  by_queue : ∀ p, (b.priorityList side).filter (fun o => o.price = p) =
    liveOrders b.orders (b.oppositeQueue side p)
  /-- The fills are those of the reference. -/
  fills_eq : (b.matchMarketOrder side q).2 =
    (serve Order.remaining (b.priorityList side) q).map fun x => x.1.fill x.2
  /-- The orders left are those that the reference leaves, in the same order. -/
  left_eq : (b.matchMarketOrder side q).1.priorityList side =
    leave Order.remaining Order.lessBy (b.priorityList side) q
  /-- The fills are for a prefix of the list: whole orders at their prices, and at most one part of
  the next one, the only order that is reduced. -/
  splits : ∃ whole rest, b.priorityList side = whole ++ rest ∧
    ((b.matchMarketOrder side q).2 = whole.map (fun o => o.fill o.remaining) ∧
        (b.matchMarketOrder side q).1.priorityList side = rest ∨
      ∃ o n behind, rest = o :: behind ∧ 0 < n ∧ n < o.remaining ∧
        (b.matchMarketOrder side q).2 = whole.map (fun o => o.fill o.remaining) ++ [o.fill n] ∧
        (b.matchMarketOrder side q).1.priorityList side = o.lessBy n :: behind)
  positive : ∀ f ∈ (b.matchMarketOrder side q).2, 0 < f.quantity
  sum_eq : ((b.matchMarketOrder side q).2.map Fill.quantity).sum =
    min (max q 0) ((b.priorityList side).map Order.remaining).sum
  /-- Exactly the orders that are filled whole have left the queues. -/
  left_book : ∀ o ∈ b.priorityList side,
    o.orderId ∉ queuedIds ((b.matchMarketOrder side q).1.oppositeLevels side) ↔
      o.fill o.remaining ∈ (b.matchMarketOrder side q).2
  /-- An order that no fill names is as it was. -/
  others : ∀ id, (∀ f ∈ (b.matchMarketOrder side q).2, f.orderId ≠ id) →
    (b.matchMarketOrder side q).1.orders.lookup id = b.orders.lookup id
  /-- The aggressor's own side is as it was. -/
  own_levels : if side = Side.buy then (b.matchMarketOrder side q).1.bids = b.bids
    else (b.matchMarketOrder side q).1.asks = b.asks
  own_orders : ∀ id o, b.orders.lookup id = some o → ¬ Opposes side o.side →
    (b.matchMarketOrder side q).1.orders.lookup id = some o

/-! ### The list -/

section List

variable (hb : b.Lodged)

include hb

theorem Lodged.nodup_oppositeIds : (queuedIds (b.oppositeLevels side)).Nodup := by
  rw [oppositeLevels]
  split_ifs
  exacts [hb.asks.nodup_queuedIds, hb.bids.nodup_queuedIds]

theorem Lodged.mem_priorityList {o : Order P} : o ∈ b.priorityList side ↔
    b.orders.lookup o.orderId = some o ∧ o.isActive = true ∧ Opposes side o.side := by
  rw [priorityList, oppositeLevels, Opposes]
  split_ifs
  exacts [hb.asks.mem_liveOrders hb.keyed, hb.bids.mem_liveOrders hb.keyed]

theorem Lodged.nodup_priorityList (side : Side) :
    ((b.priorityList side).map Order.orderId).Nodup :=
  hb.nodup_oppositeIds.sublist (map_orderId_liveOrders_sublist hb.keyed _)

theorem Lodged.priorityList_by_price : (b.priorityList side).Pairwise fun o o' =>
    if side = Side.buy then o.price ≤ o'.price else o'.price ≤ o.price := by
  rw [priorityList, oppositeLevels]
  split_ifs
  · exact hb.asks.pairwise_price.imp fun h => h.elim le_of_eq le_of_lt
  · exact hb.bids.pairwise_price.imp fun h => h.elim ge_of_eq le_of_lt

theorem Lodged.priorityList_by_queue (p : P) :
    (b.priorityList side).filter (fun o => o.price = p) =
      liveOrders b.orders (b.oppositeQueue side p) := by
  rw [priorityList, oppositeLevels, oppositeQueue]
  split_ifs
  exacts [hb.asks.filter_price p, hb.bids.filter_price p]

theorem Lodged.eq_of_orderId_eq {o o' : Order P} (ho : o ∈ b.priorityList side)
    (ho' : o' ∈ b.priorityList side) (h : o.orderId = o'.orderId) : o = o' := by
  have heq := (hb.mem_priorityList.mp ho).1
  rw [h, (hb.mem_priorityList.mp ho').1] at heq
  exact (Option.some.inj heq).symm

end List

/-! ### The match -/

/-- What the loops make of the list. -/
theorem matchMarketOrder_greedy (hk : Keyed b.orders) (hp : Positive b.orders) (hb : b.Lodged)
    (side : Side) (q : ℤ) :
    (b.matchMarketOrder side q).2 =
        (serve Order.remaining (b.priorityList side) q).map (fun x => x.1.fill x.2) ∧
      (b.matchMarketOrder side q).1.priorityList side =
        leave Order.remaining Order.lessBy (b.priorityList side) q := by
  obtain ⟨hlevels, horders, hfills⟩ := b.matchMarketOrder_eq side q
  obtain ⟨hserve, hleave⟩ := matchLevels_greedy (b.oppositeLevels side) ⟨b.orders, q, []⟩
    hb.nodup_oppositeIds hk hp
  refine ⟨?_, ?_⟩
  · rw [hfills, hserve]
    rfl
  · rw [priorityList, hlevels, horders, hleave]
    rfl

theorem Lodged.remaining_pos_of_mem (hb : b.Lodged) (side : Side) :
    ∀ o ∈ b.priorityList side, 0 < o.remaining :=
  fun _ ho => (Order.isActive_iff.mp (hb.mem_priorityList.mp ho).2.1).2

/-- How the list splits: orders filled whole, at most one in part, orders left. -/
theorem matchMarketOrder_splits (hk : Keyed b.orders) (hp : Positive b.orders) (hb : b.Lodged)
    (side : Side) (q : ℤ) :
    ∃ whole rest, b.priorityList side = whole ++ rest ∧
      ((b.matchMarketOrder side q).2 = whole.map (fun o => o.fill o.remaining) ∧
          (b.matchMarketOrder side q).1.priorityList side = rest ∨
        ∃ o n behind, rest = o :: behind ∧ 0 < n ∧ n < o.remaining ∧
          (b.matchMarketOrder side q).2 = whole.map (fun o => o.fill o.remaining) ++ [o.fill n] ∧
          (b.matchMarketOrder side q).1.priorityList side = o.lessBy n :: behind) := by
  obtain ⟨hfills, hleft⟩ := matchMarketOrder_greedy hk hp hb side q
  obtain ⟨whole, rest, hsplit, hcase⟩ :=
    serve_cases Order.lessBy (hb.remaining_pos_of_mem side) q
  refine ⟨whole, rest, hsplit, ?_⟩
  rw [hfills, hleft]
  rcases hcase with ⟨hserve, hleave⟩ | ⟨o, n, behind, hrest, hn, hlt, hserve, hleave⟩
  · refine Or.inl ⟨?_, hleave⟩
    rw [hserve, List.map_map]
    rfl
  · refine Or.inr ⟨o, n, behind, hrest, hn, hlt, ?_, hleave⟩
    rw [hserve, List.map_append, List.map_map]
    rfl

/-- The orders that are left in the list are those whose ids are still queued. -/
theorem queued_iff_mem_left (hk : Keyed b.orders) (hp : Positive b.orders) (hb : b.Lodged)
    {o : Order P} (ho : o ∈ b.priorityList side) :
    o.orderId ∈ queuedIds ((b.matchMarketOrder side q).1.oppositeLevels side) ↔
      o.orderId ∈ ((b.matchMarketOrder side q).1.priorityList side).map Order.orderId := by
  obtain ⟨rest, hsettles⟩ := matchMarketOrder_settles hk hp side q
  constructor
  · intro hid
    obtain ⟨hlookup, hact, -⟩ := hb.mem_priorityList.mp ho
    -- What is still queued has kept its flag, so it is active.
    have hflag : ((b.matchMarketOrder side q).1.orders.lookup o.orderId).map Order.isCancelled =
        (b.orders.lookup o.orderId).map Order.isCancelled := by
      obtain ⟨hlevels, horders, -⟩ := b.matchMarketOrder_eq side q
      rw [horders]
      exact matchLevels_flag _ _ hb.nodup_oppositeIds (hlevels ▸ hid)
    obtain ⟨o', ho', hage⟩ := hsettles.ages o.orderId o hlookup
    change (b.matchMarketOrder side q).1.orders.lookup o.orderId = some o' at ho'
    rw [ho', hlookup, Option.map_some, Option.map_some] at hflag
    have hc : o'.isCancelled = false :=
      (Option.some.inj hflag).trans (Order.isActive_iff.mp hact).1
    refine List.mem_map.mpr ⟨o', mem_liveOrders.mpr ⟨o.orderId, hid, ho', ?_⟩, hage.orderId⟩
    exact Order.isActive_iff.mpr ⟨hc, (hsettles.positive _ o' ho').2 hc⟩
  · intro hmem
    obtain ⟨o', ho', heq⟩ := List.mem_map.mp hmem
    obtain ⟨id, hid, hlookup, -⟩ := mem_liveOrders.mp ho'
    rw [← heq, hsettles.keyed id o' hlookup]
    exact hid

/-- Exactly the orders filled whole leave the list. -/
theorem mem_left_iff (hk : Keyed b.orders) (hp : Positive b.orders) (hb : b.Lodged) {o : Order P}
    (ho : o ∈ b.priorityList side) :
    o.orderId ∉ ((b.matchMarketOrder side q).1.priorityList side).map Order.orderId ↔
      o.fill o.remaining ∈ (b.matchMarketOrder side q).2 := by
  have hnd := hb.nodup_priorityList side
  obtain ⟨whole, rest, hsplit, hcase⟩ := matchMarketOrder_splits hk hp hb side q
  have hwhole {x : Order P} (hx : x ∈ whole) : x ∈ b.priorityList side :=
    hsplit ▸ List.mem_append_left _ hx
  rw [hsplit, List.map_append] at hnd
  have hdisj := List.disjoint_of_nodup_append hnd
  -- A whole fill comes from an order in front.
  have hfill (hmem : o.fill o.remaining ∈ whole.map fun x => x.fill x.remaining) :
      o.orderId ∉ rest.map Order.orderId := by
    obtain ⟨x, hx, heq⟩ := List.mem_map.mp hmem
    obtain rfl := hb.eq_of_orderId_eq (hwhole hx) ho (congrArg Fill.orderId heq)
    exact hdisj (List.mem_map_of_mem hx)
  have hside : o ∈ whole ∨ o ∈ rest := List.mem_append.mp (hsplit ▸ ho)
  rcases hcase with ⟨hfills, hleft⟩ | ⟨x, n, behind, rfl, -, hlt, hfills, hleft⟩
  · rw [hfills, hleft]
    refine ⟨fun hout => ?_, hfill⟩
    exact List.mem_map_of_mem
      (hside.resolve_right fun hin => hout (List.mem_map_of_mem hin))
  · have hids : (x.lessBy n :: behind).map Order.orderId = (x :: behind).map Order.orderId := rfl
    rw [hfills, hleft, hids]
    refine ⟨fun hout => List.mem_append_left _ ?_, fun hmem => ?_⟩
    · exact List.mem_map_of_mem
        (hside.resolve_right fun hin => hout (List.mem_map_of_mem hin))
    · rcases List.mem_append.mp hmem with hmem | hmem
      · exact hfill hmem
      · -- The last fill is not for all of its order.
        have heq := List.mem_singleton.mp hmem
        have hx : x ∈ b.priorityList side := hsplit ▸ List.mem_append_right _ List.mem_cons_self
        obtain rfl := hb.eq_of_orderId_eq ho hx (congrArg Fill.orderId heq)
        exact absurd (congrArg Fill.quantity heq).symm hlt.ne

/-- The own side of a market order. -/
theorem own_matchMarketOrder (b : OrderBook P) (side : Side) (q : ℤ) :
    if side = Side.buy then (b.matchMarketOrder side q).1.bids = b.bids
    else (b.matchMarketOrder side q).1.asks = b.asks := by
  by_cases hs : side = Side.buy
  · rw [if_pos hs, matchMarketOrder, if_pos hs]
  · rw [if_neg hs, matchMarketOrder, if_neg hs]

theorem matchesGreedily (hk : Keyed b.orders) (hp : Positive b.orders) (hb : b.Lodged)
    (side : Side) (q : ℤ) : b.MatchesGreedily side q := by
  obtain ⟨hlevels, horders, hfills⟩ := b.matchMarketOrder_eq side q
  obtain ⟨hserve, hleave⟩ := matchMarketOrder_greedy hk hp hb side q
  have hsplits := matchMarketOrder_splits hk hp hb side q
  obtain ⟨rest, hsettles⟩ := matchMarketOrder_settles hk hp side q
  have hothers (id : Str) (hid : ∀ f ∈ (b.matchMarketOrder side q).2, f.orderId ≠ id) :
      (b.matchMarketOrder side q).1.orders.lookup id = b.orders.lookup id := by
    rw [horders]
    exact matchLevels_lookup_of_not_filled _ _ hk (hfills ▸ hid)
  refine
    { terminates := ?_
      listed := fun _ => hb.mem_priorityList
      distinct := hb.nodup_priorityList side
      by_price := hb.priorityList_by_price
      by_queue := hb.priorityList_by_queue
      fills_eq := hserve
      left_eq := hleave
      splits := hsplits
      positive := fun f hf => ?_
      sum_eq := ?_
      left_book := fun o ho => ?_
      others := hothers
      own_levels := own_matchMarketOrder b side q
      own_orders := fun id o ho hside => ?_ }
  · refine ⟨((b.oppositeLevels side).map fun e => e.2.orders.length).sum + 1, fun turns hturns =>
      matchLevelsLoop_eq (fun e he => ?_) _⟩
    have hlength := List.single_le_sum (fun _ _ => Nat.zero_le _) _
      (List.mem_map_of_mem (f := fun e => e.2.orders.length) he)
    omega
  · obtain ⟨new, hnew, hpos, -⟩ := hsettles.fills
    exact (hpos f ((List.nil_append new) ▸ hnew ▸ hf)).1
  · rw [← sum_serve (hb.remaining_pos_of_mem side), hserve, served, List.map_map]
    rfl
  · rw [queued_iff_mem_left hk hp hb ho]
    exact mem_left_iff hk hp hb ho
  · rw [hothers id fun f hf heq => ?_]
    · exact ho
    -- A fill names an order of the other side.
    rw [hserve] at hf
    obtain ⟨⟨x, n⟩, hx, rfl⟩ := List.mem_map.mp hf
    obtain ⟨hlookup, -, hopp⟩ := hb.mem_priorityList.mp (mem_of_mem_serve hx)
    have hsame : x = o := by
      rw [show x.orderId = id from heq, ho] at hlookup
      exact (Option.some.inj hlookup).symm
    exact hside (hsame ▸ hopp)

end OrderBook

/-! ### Runs -/

/-- Orders enter with something remaining, and by `add_order` under an id that is not queued. -/
def BookOp.EntersRemaining (b : OrderBook P) : BookOp P → Prop
  | addOrder o => ¬ b.Queued o.orderId ∧ 0 < o.remaining
  | insertReplicatedOrder o => 0 < o.remaining
  | _ => True

/-- The runs of one book from empty whose orders enter with something remaining, none by `add_order`
under an id that is still queued. -/
def restingSystem (P : Type*) [LinearOrder P] : TransitionSystem (OrderBook P) (BookOp P) where
  init := OrderBook.new
  enabled := BookOp.EntersRemaining
  step := BookOp.apply

namespace OrderBook

variable {b : OrderBook P}

theorem housed_lodged_of_reachable (h : (restingSystem P).Reachable b) : b.Housed ∧ b.Lodged := by
  refine h.invariant (I := fun b => b.Housed ∧ b.Lodged) ⟨.new, .new⟩ fun s op _ hs hop => ?_
  have hchanged (hadd : ∀ o, op ≠ .addOrder o) : (op.apply s).Housed ∧ (op.apply s).Lodged := by
    have hchange : s.Change (fun o => 0 < o.remaining) (op.apply s) (op.fills s) := by
      refine change_apply_of op (fun o heq => absurd heq (hadd o)) fun o heq => ?_
      subst heq
      exact hop
    exact ⟨hchange.housed (fun _ ho => ho) hs.1, hchange.lodged hs.2⟩
  cases op with
  | addOrder o => exact ⟨hs.1.place hop.1 hop.2, hs.2.place hop.1⟩
  | _ => exact hchanged fun o heq => by cases heq

/-- **Market matching is greedy price-time matching.** In every state of every run, for every side
and every quantity. -/
theorem matchesGreedily_of_reachable (h : (restingSystem P).Reachable b) (side : Side) (q : ℤ) :
    b.MatchesGreedily side q := by
  obtain ⟨hhoused, hlodged⟩ := housed_lodged_of_reachable h
  exact matchesGreedily hhoused.keyed hhoused.positive hlodged side q

/-- Two asks at one price, the second under the id of an order that was cancelled. -/
theorem matchesGreedily_two_asks :
    (((((OrderBook.new : OrderBook ℤ).addOrder
      ⟨[97], [49], Side.sell, 100, 4, 4, 1, false⟩).1.addOrder
      ⟨[98], [49], Side.buy, 90, 1, 1, 2, false⟩).1.cancelOrder [98]).1.addOrder
      ⟨[98], [49], Side.sell, 100, 2, 2, 3, false⟩).1.MatchesGreedily Side.buy 5 := by
  have hfirst := Reachable.init (T := restingSystem ℤ) |>.step
    (.addOrder ⟨[97], [49], Side.sell, 100, 4, 4, 1, false⟩)
    ⟨Housed.new.not_queued (AList.notMem_empty _), by decide⟩
  have hbid := hfirst.step (.addOrder ⟨[98], [49], Side.buy, 90, 1, 1, 2, false⟩)
    ⟨(housed_lodged_of_reachable hfirst).1.not_queued fun hmem => ?_, by decide⟩
  · have hhoused := (housed_lodged_of_reachable hbid).1
    have hcancelled := hbid.step (.cancelOrder [98]) trivial
    exact matchesGreedily_of_reachable (hcancelled.step
      (.addOrder ⟨[98], [49], Side.sell, 100, 2, 2, 3, false⟩)
      ⟨not_queued_markCancelled hhoused.bids hhoused.asks rfl, by decide⟩) Side.buy 5
  · rcases (AList.mem_insert _).mp hmem with heq | hnone
    · simp at heq
    · exact absurd hnone (AList.notMem_empty _)

/-- A book in which `add_order` has overwritten an ask that was still queued. -/
def askReplaced : OrderBook ℤ :=
  (((OrderBook.new.addOrder ⟨[97], [49], Side.sell, 90, 3, 3, 1, false⟩).1.addOrder
    ⟨[98], [49], Side.sell, 95, 1, 1, 2, false⟩).1.addOrder
    ⟨[97], [49], Side.sell, 100, 3, 3, 3, false⟩).1

/-- The overwriting ask is filled at its price in the place of the other one, in front of a better
ask. -/
theorem not_matchesGreedily_replaced : (unfilledSystem ℤ).Reachable askReplaced ∧
    askReplaced.orders.lookup [98] = some ⟨[98], [49], Side.sell, 95, 1, 1, 2, false⟩ ∧
    (askReplaced.matchMarketOrder Side.buy 1).2 = [⟨[97], 100, 1⟩] ∧
    ¬ askReplaced.MatchesGreedily Side.buy 1 := by
  refine ⟨?_, rfl, rfl, fun h => ?_⟩
  · have hfirst := Reachable.init (T := unfilledSystem ℤ) |>.step
      (.addOrder ⟨[97], [49], Side.sell, 90, 3, 3, 1, false⟩) ⟨rfl, by decide⟩
    have hsecond := hfirst.step (.addOrder ⟨[98], [49], Side.sell, 95, 1, 1, 2, false⟩)
      ⟨rfl, by decide⟩
    exact hsecond.step (.addOrder ⟨[97], [49], Side.sell, 100, 3, 3, 3, false⟩) ⟨rfl, by decide⟩
  · have hprices : ((askReplaced.priorityList Side.buy).map Order.price).Pairwise (· ≤ ·) :=
      List.pairwise_map.mpr (h.by_price.imp fun hle => by rwa [if_pos rfl] at hle)
    have hlist : (askReplaced.priorityList Side.buy).map Order.price = [100, 95, 100] := rfl
    rw [hlist] at hprices
    have hle := List.rel_of_pairwise_cons hprices List.mem_cons_self
    exact absurd hle (by decide)

end OrderBook

end Convergence
