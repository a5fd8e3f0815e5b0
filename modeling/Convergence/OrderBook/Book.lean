import Convergence.OrderBook.Order
import Convergence.Library.SortedMap
import Mathlib.Order.Lattice

/-!
# The order book

The operations of `orderbook.cpp`. A book holds one price map a side, ordered best price first by
the comparator of its `std::map`, and the table `orders_` of every order it has seen.

A level's queue holds addresses of nodes of `orders_`. Nodes of an `unordered_map` stay where they
are, `orders_` never erases one, and every node holds an order stored under its own `order_id`, so
an address is modelled by the key of its node, and reading through it by a lookup in the table.

The source writes each branch on the side twice, once for `bids_` and once for `asks_`; here the
branch is one definition, generic in the comparator `r`, applied to both maps.

## Main definitions

* `PriceLevel`, `OrderBook`, `OrderBook.new`.
* `OrderBook.addOrder`, `OrderBook.cancelOrder`, `OrderBook.insertReplicatedOrder`,
  `OrderBook.applyReplicatedCancel`.
* `matchQueue`, `matchLevels`, `OrderBook.matchMarketOrder`: the matching loops.
* `OrderBook.getSnapshot`, `OrderBook.getAllOrders`, `OrderBook.getBestBid`,
  `OrderBook.getBestAsk`, `OrderBook.hasOrder`.
-/

namespace Convergence

variable {P : Type*}

/-- The orders resting at one price, first in first out. -/
structure PriceLevel (P : Type*) where
  price : P
  totalQuantity : ℤ
  /-- The queue; an `Order*` is the key of the node it points to. -/
  orders : List Str
  deriving DecidableEq

/-- The comparator of `bids_`, `std::greater`: highest price first. -/
abbrev BidOrder [LinearOrder P] (a b : P) : Prop := b < a

/-- The comparator of `asks_`, `std::less`: lowest price first. -/
abbrev AskOrder [LinearOrder P] (a b : P) : Prop := a < b

/-- The state of an `OrderBook`. -/
structure OrderBook (P : Type*) [LinearOrder P] where
  bids : SortedMap (BidOrder (P := P)) (PriceLevel P)
  asks : SortedMap (AskOrder (P := P)) (PriceLevel P)
  orders : OrderTable P

/-- What `get_snapshot` returns. -/
structure BookSnapshot (P : Type*) where
  bids : List (PriceLevel P)
  asks : List (PriceLevel P)

/-! ### Levels -/

/-- The remaining quantity read through a queued address. No queued address dangles. -/
def remainingOf (orders : OrderTable P) (orderId : Str) : ℤ :=
  ((orders.lookup orderId).map Order.remaining).getD 0

/-- `auto& level = side[order.price]` and the three statements after it. An absent level starts with
total `0` and an empty queue; its initial price `0.0` is overwritten at once. -/
def PriceLevel.push (order : Order P) (level? : Option (PriceLevel P)) : PriceLevel P where
  price := order.price
  totalQuantity := (level?.map PriceLevel.totalQuantity).getD 0 + order.remaining
  orders := (level?.map PriceLevel.orders).getD [] ++ [order.orderId]

/-- One branch of `remove_order_from_level`. -/
def removeFromLevel {r : P → P → Prop} [DecidableEq P] [DecidableRel r] [IsStrictTotalOrder P r]
    (levels : SortedMap r (PriceLevel P)) (orders : OrderTable P) (orderId : Str) (price : P) :
    SortedMap r (PriceLevel P) :=
  match levels.find? price with
  | none => levels
  | some level =>
    let level' :=
      if orderId ∈ level.orders then
        { level with
          totalQuantity := level.totalQuantity - remainingOf orders orderId
          orders := level.orders.erase orderId }
      else level
    if level'.orders = [] then levels.erase price else levels.upsert price fun _ => level'

/-! ### The matching loops -/

/-- What the matching loops update: the orders, the quantity still to fill, the fills so far. -/
structure MatchState (P : Type*) where
  orders : OrderTable P
  remaining : ℤ
  fills : List (Fill P)

/-- The inner loop of `match_market_order`, on the queue of one level and its total. -/
def matchQueue : List Str → ℤ → MatchState P → List Str × ℤ × MatchState P
  | [], total, s => ([], total, s)
  | id :: queue, total, s =>
    if 0 < s.remaining then
      match s.orders.lookup id with
      | none => matchQueue queue total s
      | some order =>
        -- Skip cancelled orders that haven't been cleaned up
        if order.isCancelled then matchQueue queue total s
        else
          let fillQty := min s.remaining order.remaining
          let order' := { order with remaining := order.remaining - fillQty }
          let s' : MatchState P :=
            { orders := s.orders.insert id order'
              remaining := s.remaining - fillQty
              fills := s.fills ++ [⟨order.orderId, order.price, fillQty⟩] }
          if order'.remaining = 0 then
            matchQueue queue (total - fillQty)
              { s' with orders := s.orders.insert id { order' with isCancelled := true } }
          else
            -- The front order is not used up, so `fillQty` was all of `remaining`: the loop
            -- condition fails on the next test.
            (id :: queue, total - fillQty, s')
    else (id :: queue, total, s)

/-- The outer loop of `match_market_order`, over the levels from the best price on. -/
def matchLevels : List ((_ : P) × PriceLevel P) → MatchState P →
    List ((_ : P) × PriceLevel P) × MatchState P
  | [], s => ([], s)
  | e :: levels, s =>
    if 0 < s.remaining then
      let (queue, total, s') := matchQueue e.2.orders e.2.totalQuantity s
      let (levels', s'') := matchLevels levels s'
      if queue = [] then (levels', s'')
      else (⟨e.1, { e.2 with totalQuantity := total, orders := queue }⟩ :: levels', s'')
    else (e :: levels, s)

theorem keys_matchLevels_sublist (levels : List ((_ : P) × PriceLevel P)) (s : MatchState P) :
    (matchLevels levels s).1.keys.Sublist levels.keys := by
  induction levels generalizing s with
  | nil => exact List.Sublist.refl _
  | cons e levels ih =>
    simp only [matchLevels]
    split_ifs
    · exact (ih _).cons e.1
    · exact (ih _).cons_cons e.1
    · exact List.Sublist.refl _

/-- One branch of `match_market_order`: the matching loops on one price map. -/
def matchSide {r : P → P → Prop} (levels : SortedMap r (PriceLevel P)) (s : MatchState P) :
    SortedMap r (PriceLevel P) × MatchState P :=
  (levels.rebuild (matchLevels levels.entries s).1 (keys_matchLevels_sublist _ _),
    (matchLevels levels.entries s).2)

namespace OrderBook

variable [LinearOrder P]

/-- A default-constructed `OrderBook`. -/
def new : OrderBook P := ⟨SortedMap.empty, SortedMap.empty, ∅⟩

/-- The body that `add_order` and `insert_replicated_order` share: store the order and queue it at
its price. -/
def place (b : OrderBook P) (order : Order P) : OrderBook P :=
  if order.side = Side.buy then
    { b with
      bids := b.bids.upsert order.price (PriceLevel.push order)
      orders := b.orders.insert order.orderId order }
  else
    { b with
      asks := b.asks.upsert order.price (PriceLevel.push order)
      orders := b.orders.insert order.orderId order }

/-- `OrderBook::add_order`. -/
def addOrder (b : OrderBook P) (order : Order P) : OrderBook P × Str :=
  (b.place order, order.orderId)

/-- `OrderBook::remove_order_from_level`. -/
def removeOrderFromLevel (b : OrderBook P) (orderId : Str) (side : Side) (price : P) :
    OrderBook P :=
  if side = Side.buy then { b with bids := removeFromLevel b.bids b.orders orderId price }
  else { b with asks := removeFromLevel b.asks b.orders orderId price }

/-- The body that `cancel_order` and `apply_replicated_cancel` share: flag the order and take it
out of its level. -/
def markCancelled (b : OrderBook P) (orderId : Str) (order : Order P) : OrderBook P :=
  removeOrderFromLevel
    { b with orders := b.orders.insert orderId { order with isCancelled := true } }
    orderId order.side order.price

/-- `OrderBook::cancel_order`. -/
def cancelOrder (b : OrderBook P) (orderId : Str) : OrderBook P × Bool :=
  match b.orders.lookup orderId with
  | none => (b, false)
  | some order =>
    if order.isCancelled then (b, false) else (b.markCancelled orderId order, true)

/-- `OrderBook::match_market_order`: a buy walks the asks, a sell the bids. -/
def matchMarketOrder (b : OrderBook P) (aggressorSide : Side) (quantity : ℤ) :
    OrderBook P × List (Fill P) :=
  let s : MatchState P := ⟨b.orders, quantity, []⟩
  if aggressorSide = Side.buy then
    let (asks, s') := matchSide b.asks s
    ({ b with asks := asks, orders := s'.orders }, s'.fills)
  else
    let (bids, s') := matchSide b.bids s
    ({ b with bids := bids, orders := s'.orders }, s'.fills)

/-- `OrderBook::insert_replicated_order`. -/
def insertReplicatedOrder (b : OrderBook P) (order : Order P) : OrderBook P :=
  if order.orderId ∈ b.orders then b else b.place order

/-- `OrderBook::apply_replicated_cancel`. -/
def applyReplicatedCancel (b : OrderBook P) (orderId : Str) : OrderBook P :=
  match b.orders.lookup orderId with
  | none => b
  | some order => if order.isCancelled then b else b.markCancelled orderId order

section Cancel

variable {b : OrderBook P} {orderId : Str} {order : Order P}

theorem cancelOrder_of_notMem (h : b.orders.lookup orderId = none) :
    b.cancelOrder orderId = (b, false) := by
  simp [cancelOrder, h]

theorem cancelOrder_of_cancelled (h : b.orders.lookup orderId = some order)
    (hc : order.isCancelled = true) : b.cancelOrder orderId = (b, false) := by
  simp [cancelOrder, h, hc]

theorem cancelOrder_of_active (h : b.orders.lookup orderId = some order)
    (hc : order.isCancelled = false) :
    b.cancelOrder orderId = (b.markCancelled orderId order, true) := by
  simp [cancelOrder, h, hc]

/-- What `cancel_order` can do: nothing, or cancel an order that is not cancelled yet. -/
theorem cancelOrder_cases (b : OrderBook P) (orderId : Str) :
    b.cancelOrder orderId = (b, false) ∨
      ∃ order, b.orders.lookup orderId = some order ∧ order.isCancelled = false ∧
        b.cancelOrder orderId = (b.markCancelled orderId order, true) := by
  cases ho : b.orders.lookup orderId with
  | none => exact Or.inl (cancelOrder_of_notMem ho)
  | some order =>
    cases hc : order.isCancelled with
    | true => exact Or.inl (cancelOrder_of_cancelled ho hc)
    | false => exact Or.inr ⟨order, rfl, hc, cancelOrder_of_active ho hc⟩

/-- The two cancel paths do the same to the book; a failed `cancel_order` does nothing. -/
theorem applyReplicatedCancel_eq (b : OrderBook P) (orderId : Str) :
    b.applyReplicatedCancel orderId = (b.cancelOrder orderId).1 := by
  cases h : b.orders.lookup orderId with
  | none => simp [applyReplicatedCancel, cancelOrder, h]
  | some order => cases hc : order.isCancelled <;> simp [applyReplicatedCancel, cancelOrder, h, hc]

end Cancel

/-! ### Queries -/

/-- `OrderBook::get_best_bid`. -/
def getBestBid (b : OrderBook P) : Option (PriceLevel P) := b.bids.entries.head?.map Sigma.snd

/-- `OrderBook::get_best_ask`. -/
def getBestAsk (b : OrderBook P) : Option (PriceLevel P) := b.asks.entries.head?.map Sigma.snd

/-- `OrderBook::get_snapshot`: the first `depth` levels of each side, none for `depth ≤ 0`. -/
def getSnapshot (b : OrderBook P) (depth : ℤ) : BookSnapshot P where
  bids := (b.bids.entries.map Sigma.snd).take depth.toNat
  asks := (b.asks.entries.map Sigma.snd).take depth.toNat

/-- `OrderBook::get_all_orders`: the active orders, in the iteration order of the table. -/
def getAllOrders (b : OrderBook P) : List (Order P) :=
  (b.orders.entries.map Sigma.snd).filter Order.isActive

/-- `OrderBook::has_order`. -/
def hasOrder (b : OrderBook P) (orderId : Str) : Bool := decide (orderId ∈ b.orders)

end OrderBook

end Convergence
