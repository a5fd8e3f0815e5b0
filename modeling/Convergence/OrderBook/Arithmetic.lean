import Convergence.OrderBook.LifeCycle
import Convergence.OrderBook.Depth
import Mathlib.Algebra.Order.BigOperators.Group.Finset
import Mathlib.Algebra.Order.BigOperators.Group.List

/-!
# The arithmetic on quantities

The additions and subtractions that the calls of a book make on the total of a level and on what
remains of an order. The totals are sums over the resting orders (`OrderBook.resting`), so every
result but that of an addition lies between zero and the largest of these sums; an addition adds the
new order to the sum at its price.

## Main definitions

* `OrderBook.resting`: what rests at a price on one side.
* `BookOp.results`: the results of a call, in the order in which they are computed.
* `BookOp.HasRoom`: an order that enters keeps the sum at its price within a limit.

## Main results

* `OrderBook.Inv.results_le_iff`: results keep within a limit if the order that enters has room.
* `OrderBook.Inv.resting_apply_le`: with room for the order that enters, so do the sums.
-/

namespace Convergence

variable {P : Type*}

/-! ### Results -/

/-- The total of the level at a price, zero where there is none. -/
def totalAt {r : P → P → Prop} [DecidableEq P] (levels : SortedMap r (PriceLevel P)) (p : P) : ℤ :=
  ((levels.find? p).map PriceLevel.totalQuantity).getD 0

/-- The subtraction in `remove_order_from_level`. -/
def removeResults {r : P → P → Prop} [DecidableEq P] (levels : SortedMap r (PriceLevel P))
    (orders : OrderTable P) (orderId : Str) (price : P) : List ℤ :=
  match levels.find? price with
  | none => []
  | some level =>
    if level.orders.contains orderId then [level.totalQuantity - remainingOf orders orderId]
    else []

/-- The subtractions of the inner loop of `match_market_order`: for each fill, what remains of the
order, and the total of the level. -/
def queueResults : List Str → ℤ → MatchState P → List ℤ
  | [], _, _ => []
  | id :: queue, total, s =>
    if 0 < s.remaining then
      match s.orders.lookup id with
      | none => queueResults queue total s
      | some order =>
        if order.isCancelled then queueResults queue total s
        else
          let fillQty := min s.remaining order.remaining
          let left := order.remaining - fillQty
          left :: (total - fillQty) ::
            if left = 0 then
              queueResults queue (total - fillQty) (s.record id order fillQty order.usedUp)
            else []
    else []

/-- The subtractions of the outer loop. -/
def levelsResults : List ((_ : P) × PriceLevel P) → MatchState P → List ℤ
  | [], _ => []
  | e :: levels, s =>
    if 0 < s.remaining then
      queueResults e.2.orders e.2.totalQuantity s ++
        levelsResults levels (matchQueue e.2.orders e.2.totalQuantity s).2.2
    else []

namespace OrderBook

variable [LinearOrder P]

/-- The addition in `add_order` and `insert_replicated_order`. -/
def placeResults (b : OrderBook P) (order : Order P) : List ℤ :=
  if order.side = Side.buy then [totalAt b.bids order.price + order.remaining]
  else [totalAt b.asks order.price + order.remaining]

/-- The subtraction in `cancel_order` and `apply_replicated_cancel`. -/
def cancelResults (b : OrderBook P) (orderId : Str) : List ℤ :=
  match b.orders.lookup orderId with
  | none => []
  | some order =>
    if order.isCancelled then []
    else if order.side = Side.buy then removeResults b.bids b.orders orderId order.price
    else removeResults b.asks b.orders orderId order.price

/-- The subtractions in `match_market_order`. -/
def matchResults (b : OrderBook P) (aggressorSide : Side) (quantity : ℤ) : List ℤ :=
  if aggressorSide = Side.buy then levelsResults b.asks.entries ⟨b.orders, quantity, []⟩
  else levelsResults b.bids.entries ⟨b.orders, quantity, []⟩

end OrderBook

/-- The results of a call. -/
def BookOp.results [LinearOrder P] (b : OrderBook P) : BookOp P → List ℤ
  | addOrder o => b.placeResults o
  | insertReplicatedOrder o => if o.orderId ∈ b.orders then [] else b.placeResults o
  | cancelOrder id => b.cancelResults id
  | applyReplicatedCancel id => b.cancelResults id
  | matchMarketOrder side q => b.matchResults side q

theorem remainingOf_nonneg {orders : OrderTable P} {id : Str} (h : isActiveAt orders id = true) :
    0 ≤ remainingOf orders id := by
  obtain ⟨o, ho, -, hpos⟩ := isActiveAt_iff.mp h
  rw [remainingOf_of_lookup ho]
  exact hpos.le

theorem totalRemaining_nonneg {orders : OrderTable P} {queue : List Str}
    (h : ∀ id ∈ queue, 0 ≤ remainingOf orders id) : 0 ≤ totalRemaining orders queue := by
  refine List.sum_nonneg fun n hn => ?_
  obtain ⟨id, hid, rfl⟩ := List.mem_map.mp hn
  exact h id hid

theorem remainingOf_le_totalRemaining {orders : OrderTable P} {queue : List Str}
    (h : ∀ id ∈ queue, 0 ≤ remainingOf orders id) {id : Str} (hid : id ∈ queue) :
    remainingOf orders id ≤ totalRemaining orders queue := by
  refine List.single_le_sum (fun n hn => ?_) _ (List.mem_map_of_mem hid)
  obtain ⟨a, ha, rfl⟩ := List.mem_map.mp hn
  exact h a ha

/-- A queue that loses orders, which grow older, holds less. -/
theorem totalRemaining_le_of_ages {before after : OrderTable P} {queue queue' : List Str}
    (hage : Ages before after) (hsub : queue'.Sublist queue)
    (hact : ∀ id ∈ queue, isActiveAt before id = true) :
    totalRemaining after queue' ≤ totalRemaining before queue := by
  have hle : ∀ id ∈ queue', remainingOf after id ≤ remainingOf before id := fun id hid => by
    obtain ⟨o, ho, -⟩ := isActiveAt_iff.mp (hact id (hsub.subset hid))
    obtain ⟨o', ho', ha⟩ := hage id o ho
    rw [remainingOf_of_lookup ho, remainingOf_of_lookup ho']
    exact ha.remaining_le
  calc totalRemaining after queue'
      ≤ totalRemaining before queue' := List.sum_le_sum hle
    _ ≤ totalRemaining before queue := by
      refine (hsub.map _).sum_le_sum fun n hn => ?_
      obtain ⟨id, hid, rfl⟩ := List.mem_map.mp hn
      exact remainingOf_nonneg (hact id hid)

/-! ### The matching loops -/

/-- The inner loop, on a queue of distinct active orders, takes from a total no more than remains of
them. -/
theorem mem_queueResults {queue : List Str} {total : ℤ} {s : MatchState P} (hnd : queue.Nodup)
    (hact : ∀ id ∈ queue, isActiveAt s.orders id = true)
    (htotal : totalRemaining s.orders queue ≤ total) :
    ∀ n ∈ queueResults queue total s, 0 ≤ n ∧ n ≤ total := by
  induction queue generalizing total s with
  | nil => nofun
  | cons id queue ih =>
    obtain ⟨hid, hnd⟩ := List.nodup_cons.mp hnd
    have hframe (o' : Order P) : ∀ a ∈ queue,
        (s.orders.insert id o').lookup a = s.orders.lookup a := fun a ha =>
      AList.lookup_insert_ne fun h => hid (h ▸ ha)
    have hact' : ∀ a ∈ queue, isActiveAt s.orders a = true := fun a ha =>
      hact a (List.mem_cons_of_mem _ ha)
    obtain ⟨o, ho, hc, hr⟩ := isActiveAt_iff.mp (hact id List.mem_cons_self)
    have hrest := totalRemaining_nonneg fun a ha => remainingOf_nonneg (hact' a ha)
    rw [totalRemaining_cons, remainingOf_of_lookup ho] at htotal
    intro n hn
    rw [queueResults] at hn
    split_ifs at hn with hrem
    · simp only [ho, hc, Bool.false_eq_true, if_false] at hn
      rcases List.mem_cons.mp hn with rfl | hn
      · omega
      rcases List.mem_cons.mp hn with rfl | hn
      · omega
      split_ifs at hn with hzero
      · have hfill : min s.remaining o.remaining = o.remaining := by omega
        rw [hfill] at hn
        have hbehind : totalRemaining (s.record id o o.remaining o.usedUp).orders queue ≤
            total - o.remaining := by
          rw [MatchState.record, totalRemaining_congr (hframe _)]
          omega
        obtain ⟨h₀, h₁⟩ := ih hnd
          (fun a ha => (isActiveAt_congr (hframe _ a ha)).trans (hact' a ha)) hbehind n hn
        exact ⟨h₀, by omega⟩
      · exact absurd hn List.not_mem_nil
    · exact absurd hn List.not_mem_nil

/-- The outer loop takes from each total no more than rests at its level. -/
theorem mem_levelsResults {levels : List ((_ : P) × PriceLevel P)} {s : MatchState P} {m : ℤ}
    (hnd : (queuedIds levels).Nodup) (hact : ∀ id ∈ queuedIds levels, isActiveAt s.orders id = true)
    (htotal : ∀ e ∈ levels, e.2.totalQuantity = totalRemaining s.orders e.2.orders)
    (hm : ∀ e ∈ levels, e.2.totalQuantity ≤ m) :
    ∀ n ∈ levelsResults levels s, 0 ≤ n ∧ n ≤ m := by
  induction levels generalizing s with
  | nil => nofun
  | cons e levels ih =>
    obtain ⟨hnd₁, hnd₂, hdisj⟩ := nodup_queuedIds_cons.mp hnd
    obtain ⟨hact₁, hact₂⟩ := forall_mem_queuedIds_cons.mp hact
    obtain ⟨-, -, hmatched⟩ := matchQueue_spec e.2.orders e.2.totalQuantity s hnd₁ hact₁
    -- The levels behind this one do not share an order with it.
    have hframe : ∀ id ∈ queuedIds levels,
        (matchQueue e.2.orders e.2.totalQuantity s).2.2.orders.lookup id = s.orders.lookup id :=
      fun id hid => hmatched.frame id fun h => hdisj h hid
    intro n hn
    rw [levelsResults] at hn
    split_ifs at hn
    · rcases List.mem_append.mp hn with hn | hn
      · have hself := htotal e List.mem_cons_self
        obtain ⟨h₀, h₁⟩ := mem_queueResults hnd₁ hact₁ hself.ge n hn
        exact ⟨h₀, h₁.trans (hm e List.mem_cons_self)⟩
      · refine ih hnd₂ (fun id hid => ?_) (fun e' he' => ?_)
          (fun e' he' => hm e' (List.mem_cons_of_mem _ he')) n hn
        · exact (isActiveAt_congr (hframe id hid)).trans (hact₂ id hid)
        · rw [htotal e' (List.mem_cons_of_mem _ he')]
          exact (totalRemaining_congr fun id hid =>
            hframe id (List.mem_flatMap.mpr ⟨e', he', hid⟩)).symm
    · exact absurd hn List.not_mem_nil

/-! ### What rests at a price -/

theorem totalQuantity_of_mem {r : P → P → Prop} [DecidableEq P] [Std.Irrefl r]
    {levels : SortedMap r (PriceLevel P)} {e : (_ : P) × PriceLevel P} (he : e ∈ levels.entries) :
    e.2.totalQuantity = totalAt levels e.1 := by
  rw [totalAt, SortedMap.find?_eq_some_iff.mpr he]
  rfl

namespace SideInv

variable [DecidableEq P] {r : P → P → Prop} {orders : OrderTable P}
  {levels : SortedMap r (PriceLevel P)} {own : Side → Prop}

theorem totalAt_eq (h : SideInv orders levels own) (p : P) :
    totalAt levels p = totalRemaining orders (queueAt levels p) := by
  rw [totalAt, h.represents p, levelOf]
  split_ifs with hq
  · rw [hq]
    rfl
  · rfl

/-- Taking an order out of its level. -/
theorem mem_removeResults (h : SideInv orders levels own)
    (hpos : ∀ id o, orders.lookup id = some o → o.isCancelled = false → 0 < o.remaining)
    {id : Str} {price : P} :
    ∀ n ∈ removeResults levels orders id price, 0 ≤ n ∧ n ≤ totalAt levels price := by
  intro n hn
  have htotal := h.totalAt_eq price
  have hnonneg : ∀ a ∈ queueAt levels price, 0 ≤ remainingOf orders a := fun a ha =>
    remainingOf_nonneg (h.isActiveAt hpos price a ha)
  rw [removeResults] at hn
  rw [totalAt] at htotal ⊢
  cases hfind : levels.find? price with
  | none =>
    rw [hfind] at hn
    exact absurd hn List.not_mem_nil
  | some level =>
    have hqueue : queueAt levels price = level.orders := by
      rw [queueAt, hfind]
      rfl
    rw [hfind] at hn htotal
    rw [hqueue] at htotal hnonneg
    dsimp only at hn
    split_ifs at hn with hid
    · obtain rfl := List.mem_singleton.mp hn
      have hid := List.contains_iff_mem.mp hid
      have h₀ := hnonneg id hid
      have h₁ := remainingOf_le_totalRemaining hnonneg hid
      rw [Option.map_some, Option.getD_some] at htotal ⊢
      omega
    · exact absurd hn List.not_mem_nil

/-- Matching one side. -/
theorem mem_levelsResults [Std.Irrefl r] (h : SideInv orders levels own)
    (hpos : ∀ id o, orders.lookup id = some o → o.isCancelled = false → 0 < o.remaining) {m q : ℤ}
    (hm : ∀ p, totalAt levels p ≤ m) (fills : List (Fill P)) :
    ∀ n ∈ levelsResults levels.entries ⟨orders, q, fills⟩, 0 ≤ n ∧ n ≤ m := by
  have hnd := h.represents.nodup_queuedIds h.nodup fun _ _ _ => h.price_unique
  refine Convergence.mem_levelsResults hnd (h.isActiveAt_queuedIds hpos) (fun e he => ?_)
    fun e he => ?_
  · rw [totalQuantity_of_mem he, h.totalAt_eq, queueAt_of_mem he]
  · rw [totalQuantity_of_mem he]
    exact hm e.1

end SideInv

namespace OrderBook

variable [LinearOrder P] {b b' : OrderBook P}

/-- What remains of the active orders at a price, on the side of the book where `side` goes. -/
def resting (b : OrderBook P) (side : Side) (p : P) : ℤ :=
  ∑ o ∈ b.activeOrders with (IsBid o.side ↔ IsBid side) ∧ o.price = p, o.remaining

/-- The totals are what rests. -/
theorem Inv.totalAt_bids (h : b.Inv) {side : Side} (hs : side = Side.buy) (p : P) :
    totalAt b.bids p = b.resting side p := by
  rw [h.bids.totalAt_eq, h.bids.totalRemaining_queueAt h.keyed (fun _ => h.mem_activeOrders),
    Finset.filter_filter, resting]
  have hbid : IsBid side := hs
  simp only [hbid, iff_true]

theorem Inv.totalAt_asks (h : b.Inv) {side : Side} (hs : side ≠ Side.buy) (p : P) :
    totalAt b.asks p = b.resting side p := by
  rw [h.asks.totalAt_eq, h.asks.totalRemaining_queueAt h.keyed (fun _ => h.mem_activeOrders),
    Finset.filter_filter, resting]
  have hask : ¬ IsBid side := hs
  simp only [hask, iff_false]
  rfl

theorem resting_new (side : Side) (p : P) : (OrderBook.new : OrderBook P).resting side p = 0 := by
  by_cases hs : side = Side.buy
  · exact (Inv.new.totalAt_bids hs p).symm
  · exact (Inv.new.totalAt_asks hs p).symm

theorem Inv.placeResults_eq (h : b.Inv) (o : Order P) :
    b.placeResults o = [b.resting o.side o.price + o.remaining] := by
  rw [placeResults]
  split_ifs with hs
  · rw [h.totalAt_bids hs]
  · rw [h.totalAt_asks hs]

theorem Inv.resting_nonneg (h : b.Inv) (side : Side) (p : P) : 0 ≤ b.resting side p :=
  Finset.sum_nonneg fun o ho => by
    obtain ⟨ho, hc⟩ := h.mem_activeOrders.mp (Finset.mem_filter.mp ho).1
    exact (h.pos _ o ho hc).le

/-! ### Room for an order -/

/-- A call in which no order enters takes orders from the queues only. -/
theorem Change.queueAt_sublist {fills : List (Fill P)} (h : b.Change (fun _ => False) b' fills)
    (p : P) : (queueAt b'.bids p).Sublist (queueAt b.bids p) ∧
      (queueAt b'.asks p).Sublist (queueAt b.asks p) := by
  cases h with
  | same => exact ⟨.refl _, .refl _⟩
  | entered o _ ho => exact ho.elim
  | cancelled id o =>
    rw [queueAt_bids_markCancelled, queueAt_asks_markCancelled]
    constructor
    · split_ifs
      exacts [List.erase_sublist, .refl _]
    · split_ifs
      exacts [List.erase_sublist, .refl _]
  | matched side q =>
    rw [matchMarketOrder]
    split_ifs
    · exact ⟨.refl _, queueAt_matchSide_sublist b.asks _ p⟩
    · exact ⟨queueAt_matchSide_sublist b.bids _ p, .refl _⟩

theorem Inv.resting_le_of_change (h : b.Inv) (hp : Positive b.orders) {fills : List (Fill P)}
    (hchange : b.Change (fun _ => False) b' fills) (side : Side) (p : P) :
    b'.resting side p ≤ b.resting side p := by
  have h' : b'.Inv := hchange.inv (fun _ => False.elim) h
  have hage := hchange.ages h.keyed hp
  obtain ⟨hbids, hasks⟩ := hchange.queueAt_sublist p
  by_cases hs : side = Side.buy
  · rw [← h.totalAt_bids hs, ← h'.totalAt_bids hs, h.bids.totalAt_eq, h'.bids.totalAt_eq]
    exact totalRemaining_le_of_ages hage hbids (h.bids.isActiveAt h.pos p)
  · rw [← h.totalAt_asks hs, ← h'.totalAt_asks hs, h.asks.totalAt_eq, h'.asks.totalAt_eq]
    exact totalRemaining_le_of_ages hage hasks (h.asks.isActiveAt h.pos p)

theorem totalAt_upsert_push {r : P → P → Prop} [DecidableRel r] [IsStrictTotalOrder P r]
    (levels : SortedMap r (PriceLevel P)) (o : Order P) (p : P) :
    totalAt (levels.upsert o.price (PriceLevel.push o)) p =
      if p = o.price then totalAt levels p + o.remaining else totalAt levels p := by
  rw [totalAt, SortedMap.find?_upsert]
  split_ifs with hp
  · subst hp
    rfl
  · rfl

/-- The new order rests at its price, on its side. -/
theorem Inv.resting_place (h : b.Inv) {o : Order P} (hid : o.orderId ∉ b.orders)
    (hc : o.isCancelled = false) (hr : 0 < o.remaining) (side : Side) (p : P) :
    (b.place o).resting side p =
      if (side = Side.buy ↔ o.side = Side.buy) ∧ p = o.price then
        b.resting o.side o.price + o.remaining
      else b.resting side p := by
  have h' := h.place hid hc hr
  by_cases hs : side = Side.buy
  · rw [← h'.totalAt_bids hs, ← h.totalAt_bids hs, OrderBook.place]
    by_cases ho : o.side = Side.buy
    · rw [if_pos ho, totalAt_upsert_push, ← h.totalAt_bids ho]
      split_ifs with hp hand hand
      · rw [hp]
      · exact absurd ⟨iff_of_true hs ho, hp⟩ hand
      · exact absurd hand.2 hp
      · rfl
    · rw [if_neg ho, if_neg fun hand => ho (hand.1.mp hs)]
  · rw [← h'.totalAt_asks hs, ← h.totalAt_asks hs, OrderBook.place]
    by_cases ho : o.side = Side.buy
    · rw [if_pos ho, if_neg fun hand => hs (hand.1.mpr ho)]
    · rw [if_neg ho, totalAt_upsert_push, ← h.totalAt_asks ho]
      split_ifs with hp hand hand
      · rw [hp]
      · exact absurd ⟨iff_of_false hs ho, hp⟩ hand
      · exact absurd hand.2 hp
      · rfl

/-- There is room for an order when the sum at its price stays within the limit. -/
def HasRoom (b : OrderBook P) (m : ℤ) (o : Order P) : Prop :=
  b.resting o.side o.price + o.remaining ≤ m

end OrderBook

/-- A new order is one without fills. -/
theorem BookOp.Admissible.enters [LinearOrder P] {b : OrderBook P} {op : BookOp P}
    (h : op.Admissible b) : op.Enters b := by
  cases op with
  | addOrder => exact ⟨h.1, h.2.1, h.2.2.1⟩
  | insertReplicatedOrder => exact ⟨h.1, h.2.1⟩
  | cancelOrder => trivial
  | applyReplicatedCancel => trivial
  | matchMarketOrder => trivial

/-- There is room for the order that the call brings in. -/
def BookOp.HasRoom [LinearOrder P] (m : ℤ) (b : OrderBook P) : BookOp P → Prop
  | addOrder o => b.HasRoom m o
  | insertReplicatedOrder o => o.orderId ∉ b.orders → b.HasRoom m o
  | _ => True

namespace OrderBook

variable [LinearOrder P] {b : OrderBook P} {m : ℤ}

theorem Inv.place_le (h : b.Inv) (hm : ∀ side p, b.resting side p ≤ m) {o : Order P}
    (hid : o.orderId ∉ b.orders) (hc : o.isCancelled = false) (hr : 0 < o.remaining)
    (hroom : b.HasRoom m o) (side : Side) (p : P) : (b.place o).resting side p ≤ m := by
  rw [h.resting_place hid hc hr]
  split_ifs
  exacts [hroom, hm side p]

/-- With room for what enters, no more than the limit rests at any price. -/
theorem Inv.resting_apply_le (h : b.Inv) (hp : Positive b.orders)
    (hm : ∀ side p, b.resting side p ≤ m) {op : BookOp P} (hop : op.Admissible b)
    (hroom : op.HasRoom m b) (side : Side) (p : P) : (op.apply b).resting side p ≤ m := by
  cases op with
  | addOrder o =>
    obtain ⟨hid, hr, hq, hc⟩ := hop
    exact h.place_le hm hid hc (hr ▸ hq) hroom side p
  | insertReplicatedOrder o =>
    obtain ⟨hr, hq, hc⟩ := hop
    rw [BookOp.apply, OrderBook.insertReplicatedOrder]
    split_ifs with hid
    · exact hm side p
    · exact h.place_le hm hid hc (hr ▸ hq) (hroom hid) side p
  | cancelOrder id =>
    exact (h.resting_le_of_change hp (change_cancelOrder b id) side p).trans (hm side p)
  | applyReplicatedCancel id =>
    exact (h.resting_le_of_change hp (change_applyReplicatedCancel b id) side p).trans (hm side p)
  | matchMarketOrder s q =>
    exact (h.resting_le_of_change hp (.matched s q) side p).trans (hm side p)

theorem Inv.mem_cancelResults (h : b.Inv) (hm : ∀ side p, b.resting side p ≤ m) (id : Str) :
    ∀ n ∈ b.cancelResults id, 0 ≤ n ∧ n ≤ m := by
  intro n hn
  rw [cancelResults] at hn
  cases ho : b.orders.lookup id with
  | none =>
    rw [ho] at hn
    exact absurd hn List.not_mem_nil
  | some o =>
    rw [ho] at hn
    dsimp only at hn
    split_ifs at hn with hc hs
    · exact absurd hn List.not_mem_nil
    · obtain ⟨h₀, h₁⟩ := h.bids.mem_removeResults h.pos n hn
      rw [h.totalAt_bids hs] at h₁
      exact ⟨h₀, h₁.trans (hm _ _)⟩
    · obtain ⟨h₀, h₁⟩ := h.asks.mem_removeResults h.pos n hn
      rw [h.totalAt_asks hs] at h₁
      exact ⟨h₀, h₁.trans (hm _ _)⟩

theorem Inv.mem_matchResults (h : b.Inv) (hm : ∀ side p, b.resting side p ≤ m) (side : Side)
    (q : ℤ) : ∀ n ∈ b.matchResults side q, 0 ≤ n ∧ n ≤ m := by
  rw [matchResults]
  split_ifs with hs
  · refine h.asks.mem_levelsResults h.pos (fun p => ?_) []
    have hsell : Side.sell ≠ Side.buy := nofun
    rw [h.totalAt_asks hsell]
    exact hm _ p
  · refine h.bids.mem_levelsResults h.pos (fun p => ?_) []
    rw [h.totalAt_bids rfl]
    exact hm _ p

/-- The results of a call are not negative, and they keep within the limit if and only if there is
room for the order that enters. -/
theorem Inv.results_le_iff (h : b.Inv) (hm : ∀ side p, b.resting side p ≤ m) {op : BookOp P}
    (hop : op.Admissible b) :
    (∀ n ∈ op.results b, 0 ≤ n) ∧ ((∀ n ∈ op.results b, n ≤ m) ↔ op.HasRoom m b) := by
  have hplace {o : Order P} (hr : 0 < o.remaining) : (∀ n ∈ b.placeResults o, 0 ≤ n) ∧
      ((∀ n ∈ b.placeResults o, n ≤ m) ↔ b.HasRoom m o) := by
    rw [h.placeResults_eq, List.forall_mem_singleton, List.forall_mem_singleton]
    exact ⟨(add_pos_of_nonneg_of_pos (h.resting_nonneg _ _) hr).le, Iff.rfl⟩
  have hbelow {ns : List ℤ} (hns : ∀ n ∈ ns, 0 ≤ n ∧ n ≤ m) :
      (∀ n ∈ ns, 0 ≤ n) ∧ ((∀ n ∈ ns, n ≤ m) ↔ True) :=
    ⟨fun n hn => (hns n hn).1, iff_true_intro fun n hn => (hns n hn).2⟩
  cases op with
  | addOrder o =>
    obtain ⟨-, hr, hq, -⟩ := hop
    exact hplace (hr ▸ hq)
  | insertReplicatedOrder o =>
    obtain ⟨hr, hq, -⟩ := hop
    rw [BookOp.results, BookOp.HasRoom]
    split_ifs with hid
    · exact ⟨nofun, iff_of_true nofun fun hnot => absurd hid hnot⟩
    · obtain ⟨h₀, hiff⟩ := hplace (hr ▸ hq)
      exact ⟨h₀, hiff.trans ⟨fun hroom _ => hroom, fun hroom => hroom hid⟩⟩
  | cancelOrder id => exact hbelow (h.mem_cancelResults hm id)
  | applyReplicatedCancel id => exact hbelow (h.mem_cancelResults hm id)
  | matchMarketOrder side q => exact hbelow (h.mem_matchResults hm side q)

end OrderBook

end Convergence
