import Convergence.OrderBook.Ledger

/-!
# The life of an order

An order enters a book with all of its quantity remaining; fills take from it until nothing remains
or it is cancelled, and then it is over for good. The runs here are those of one book together with
the fills it has returned. Orders may enter with the flag already set, as a replicated order can:
such an order is queued, and the matching loops drop it when they come to it.

That a finished order never comes back rests on where the ids are queued: in a queue at the price
and on the side of their order, once each (`OrderBook.Housed`). So cancelling an order takes its
only occurrence away, and an order that is used up leaves with the front of its queue.

## Main definitions

* `SideHoused`, `OrderBook.Housed`, `OrderBook.Queued`.
* `TradedBook`, `tradeSystem`.
* `LifeCycle`: an order at one moment of a run and at a later one.

## Main results

* `TradedBook.Inv.step`, `OrderBook.Change.settled`.
* `TradedBook.lifeCycle_of_reaches`.
-/

namespace Convergence

open TransitionSystem

variable {P : Type*}

/-! ### Where orders are queued -/

/-- The ids queued under a price belong to orders of the side `own` at this price. -/
structure SideHoused [DecidableEq P] {r : P → P → Prop} (orders : OrderTable P)
    (levels : SortedMap r (PriceLevel P)) (own : Side → Prop) : Prop where
  located : ∀ p, ∀ id ∈ queueAt levels p,
    ∃ o, orders.lookup id = some o ∧ own o.side ∧ o.price = p
  nodup : ∀ p, (queueAt levels p).Nodup

namespace SideHoused

variable [DecidableEq P] {r : P → P → Prop} {orders orders' : OrderTable P}
  {levels levels' : SortedMap r (PriceLevel P)} {own : Side → Prop}

theorem empty : SideHoused orders (SortedMap.empty : SortedMap r (PriceLevel P)) own where
  located _ _ hid := absurd hid List.not_mem_nil
  nodup _ := List.nodup_nil

/-- Orders grow older and queues lose ids. -/
theorem shrink (h : SideHoused orders levels own) (hage : Ages orders orders')
    (hsub : ∀ p, (queueAt levels' p).Sublist (queueAt levels p)) :
    SideHoused orders' levels' own where
  located p id hid := by
    obtain ⟨o, ho, hs, hp⟩ := h.located p id ((hsub p).subset hid)
    obtain ⟨o', ho', ha⟩ := hage id o ho
    exact ⟨o', ho', ha.side ▸ hs, ha.price.trans hp⟩
  nodup p := (h.nodup p).sublist (hsub p)

theorem price_unique (h : SideHoused orders levels own) {p p' : P} {id : Str}
    (hid : id ∈ queueAt levels p) (hid' : id ∈ queueAt levels p') : p = p' := by
  obtain ⟨o, ho, -, rfl⟩ := h.located p id hid
  obtain ⟨o', ho', -, rfl⟩ := h.located p' id hid'
  rw [Option.some.inj (ho.symm.trans ho')]

/-- An order is queued on its side at its price, and nowhere else. -/
theorem notMem_queueAt_of_lookup (h : SideHoused orders levels own) {id : Str} {o : Order P} {p : P}
    (ho : orders.lookup id = some o) (hown : ¬ (own o.side ∧ p = o.price)) :
    id ∉ queueAt levels p := fun hid => by
  obtain ⟨x, hx, hs, hp⟩ := h.located p id hid
  obtain rfl := Option.some.inj (hx.symm.trans ho)
  exact hown ⟨hs, hp.symm⟩

theorem nodup_queuedIds [Std.Irrefl r] (h : SideHoused orders levels own) :
    (queuedIds levels.entries).Nodup :=
  nodup_queuedIds_of_queueAt h.nodup fun _ _ _ => h.price_unique

/-- An id that the table does not have is in no queue. -/
theorem notMem_queueAt (h : SideHoused orders levels own) {id : Str} (hid : id ∉ orders) (p : P) :
    id ∉ queueAt levels p := fun hin => by
  obtain ⟨o, ho, -⟩ := h.located p id hin
  exact hid (mem_of_lookup ho)

/-- An order comes into the table under an id that is in no queue here. -/
theorem insert (h : SideHoused orders levels own) {o : Order P}
    (hid : ∀ p, o.orderId ∉ queueAt levels p) :
    SideHoused (orders.insert o.orderId o) levels own where
  located p id hin := by
    obtain ⟨x, hx, hown⟩ := h.located p id hin
    have hne : id ≠ o.orderId := fun heq => hid p (heq ▸ hin)
    exact ⟨x, (AList.lookup_insert_ne hne).trans hx, hown⟩
  nodup := h.nodup

/-- An order is queued whose id is in no queue here. -/
theorem push [DecidableRel r] [IsStrictTotalOrder P r] (h : SideHoused orders levels own)
    {o : Order P} (hid : ∀ p, o.orderId ∉ queueAt levels p) (hs : own o.side) :
    SideHoused (orders.insert o.orderId o) (levels.upsert o.price (PriceLevel.push o)) own where
  located p id hmem := by
    have hold (hin : id ∈ queueAt levels p) :
        ∃ x, (orders.insert o.orderId o).lookup id = some x ∧ own x.side ∧ x.price = p :=
      (h.insert hid).located p id hin
    rw [queueAt_upsert_push] at hmem
    split_ifs at hmem with hp
    · rcases List.mem_append.mp hmem with hin | hnew
      · exact hold hin
      · obtain rfl := List.mem_singleton.mp hnew
        exact ⟨o, AList.lookup_insert _, hs, hp.symm⟩
    · exact hold hmem
  nodup p := by
    rw [queueAt_upsert_push]
    split_ifs
    · refine (h.nodup p).append (List.nodup_singleton _) ?_
      rw [List.disjoint_singleton]
      exact hid p
    · exact h.nodup p

end SideHoused

/-- Matching takes ids from the queues and adds none. -/
theorem queueAt_matchSide_sublist [DecidableEq P] {r : P → P → Prop} [Std.Irrefl r]
    (levels : SortedMap r (PriceLevel P)) (s : MatchState P) (p : P) :
    (queueAt (matchSide levels s).1 p).Sublist (queueAt levels p) := by
  rw [queueAt]
  cases hfind : (matchSide levels s).1.find? p with
  | none => exact List.nil_sublist _
  | some level =>
    obtain ⟨e, he, hkey, hsuffix⟩ :=
      exists_of_mem_matchLevels (SortedMap.find?_eq_some_iff.mp hfind)
    obtain rfl : e.1 = p := hkey
    rw [queueAt_of_mem he]
    exact hsuffix.sublist

namespace OrderBook

variable [LinearOrder P] {b : OrderBook P}

/-- The id is in some queue. -/
def Queued (b : OrderBook P) (id : Str) : Prop :=
  ∃ p, id ∈ queueAt b.bids p ∨ id ∈ queueAt b.asks p

/-- Orders are stored under their ids with nothing below zero remaining, and queued on their sides
at their prices. -/
structure Housed (b : OrderBook P) : Prop where
  keyed : Keyed b.orders
  positive : Positive b.orders
  bids : SideHoused b.orders b.bids IsBid
  asks : SideHoused b.orders b.asks IsAsk

/-- An id that is not queued is in no queue of either side. -/
theorem notMem_of_not_queued {id : Str} (h : ¬ b.Queued id) (p : P) :
    id ∉ queueAt b.bids p ∧ id ∉ queueAt b.asks p :=
  ⟨fun hq => h ⟨p, Or.inl hq⟩, fun hq => h ⟨p, Or.inr hq⟩⟩

theorem Housed.not_queued (hb : b.Housed) {id : Str} (hid : id ∉ b.orders) : ¬ b.Queued id := by
  rintro ⟨p, hq | hq⟩
  exacts [hb.bids.notMem_queueAt hid p hq, hb.asks.notMem_queueAt hid p hq]

/-- An order is placed under an id that is not queued. An entry that it overwrites is in no queue
then. -/
theorem Housed.place (hb : b.Housed) {o : Order P} (hid : ¬ b.Queued o.orderId)
    (hpos : 0 < o.remaining) : (b.place o).Housed := by
  have hkeyed : Keyed (b.place o).orders := keyed_place hb.keyed o
  have hpositive : Positive (b.place o).orders := by
    rw [orders_place]
    exact hb.positive.insert _ hpos.le fun _ => hpos
  have hbids (p : P) := (notMem_of_not_queued hid p).1
  have hasks (p : P) := (notMem_of_not_queued hid p).2
  rw [OrderBook.place] at hkeyed hpositive ⊢
  split_ifs at hkeyed hpositive ⊢ with hs
  · exact ⟨hkeyed, hpositive, hb.bids.push hbids hs, hb.asks.insert hasks⟩
  · exact ⟨hkeyed, hpositive, hb.bids.insert hbids, hb.asks.push hasks hs⟩

end OrderBook

/-! ### How a call changes a book -/

/-- Nothing of the order has been filled. Its flag may be set. -/
def Order.Unfilled (o : Order P) : Prop := o.remaining = o.quantity ∧ 0 < o.quantity

/-- An order without fills enters under an id that is new, or by `insert_replicated_order` under any
id. -/
def BookOp.Enters [LinearOrder P] (b : OrderBook P) : BookOp P → Prop
  | addOrder o => o.orderId ∉ b.orders ∧ o.Unfilled
  | insertReplicatedOrder o => o.Unfilled
  | _ => True

/-- The fills that a call returns. -/
def BookOp.fills [LinearOrder P] (b : OrderBook P) : BookOp P → List (Fill P)
  | matchMarketOrder side q => (b.matchMarketOrder side q).2
  | _ => []

namespace OrderBook

variable [LinearOrder P] {b b' : OrderBook P} {fills : List (Fill P)} {E : Order P → Prop}

/-- The book after a call, and its fills, when only orders that satisfy `E` enter. -/
inductive Change (E : Order P → Prop) (b : OrderBook P) : OrderBook P → List (Fill P) → Prop
  | same : Change E b b []
  | entered (o : Order P) (hid : o.orderId ∉ b.orders) (ho : E o) : Change E b (b.place o) []
  | cancelled (id : Str) (o : Order P) (ho : b.orders.lookup id = some o)
      (hc : o.isCancelled = false) : Change E b (b.markCancelled id o) []
  | matched (side : Side) (q : ℤ) :
      Change E b (b.matchMarketOrder side q).1 (b.matchMarketOrder side q).2

theorem change_insertReplicatedOrder (b : OrderBook P) (o : Order P)
    (ho : o.orderId ∉ b.orders → E o) : b.Change E (b.insertReplicatedOrder o) [] := by
  rw [insertReplicatedOrder]
  split_ifs with hid
  · exact .same
  · exact .entered o hid (ho hid)

theorem change_cancelOrder (b : OrderBook P) (id : Str) : b.Change E (b.cancelOrder id).1 [] := by
  obtain hcancel | ⟨o, ho, hc, hcancel⟩ := cancelOrder_cases b id
  · rw [hcancel]
    exact .same
  · rw [hcancel]
    exact .cancelled id o ho hc

theorem change_applyReplicatedCancel (b : OrderBook P) (id : Str) :
    b.Change E (b.applyReplicatedCancel id) [] :=
  applyReplicatedCancel_eq b id ▸ change_cancelOrder b id

/-- A call changes the book when the order it brings is one that may enter. -/
theorem change_apply_of (op : BookOp P)
    (hadd : ∀ o, op = .addOrder o → o.orderId ∉ b.orders ∧ E o)
    (hinsert : ∀ o, op = .insertReplicatedOrder o → E o) :
    b.Change E (op.apply b) (op.fills b) := by
  cases op with
  | addOrder o => exact .entered o (hadd o rfl).1 (hadd o rfl).2
  | insertReplicatedOrder o => exact change_insertReplicatedOrder b o fun _ => hinsert o rfl
  | cancelOrder id => exact change_cancelOrder b id
  | applyReplicatedCancel id => exact change_applyReplicatedCancel b id
  | matchMarketOrder side q => exact .matched side q

theorem change_apply (op : BookOp P) (hop : op.Enters b) :
    b.Change Order.Unfilled (op.apply b) (op.fills b) := by
  refine change_apply_of op (fun o heq => ?_) fun o heq => ?_
  · subst heq
    exact hop
  · subst heq
    exact hop

namespace Change

/-- The table after a change, and the fills against what remains. -/
theorem ages (h : b.Change E b' fills) (hk : Keyed b.orders) (hp : Positive b.orders) :
    Ages b.orders b'.orders := by
  cases h with
  | same => exact .refl _
  | entered o hid =>
    rw [orders_place]
    exact .insert_of_notMem hid
  | cancelled id o ho hc =>
    rw [orders_markCancelled]
    exact .insert ho ⟨rfl, le_rfl, fun h => absurd h (by simp [hc])⟩
  | matched side q =>
    obtain ⟨_, hs⟩ := matchMarketOrder_settles hk hp side q
    exact hs.ages

theorem fills_spec (h : b.Change E b' fills) (hk : Keyed b.orders) (hp : Positive b.orders) :
    (∀ f ∈ fills, 0 < f.quantity ∧
      ∃ o, b.orders.lookup f.orderId = some o ∧ o.isCancelled = false) ∧
    ∀ id o o', b.orders.lookup id = some o → b'.orders.lookup id = some o' →
      o'.remaining + filled fills id = o.remaining := by
  have hsame {id : Str} {o o' : Order P} (heq : o' = { o with isCancelled := o'.isCancelled }) :
      o'.remaining + filled ([] : List (Fill P)) id = o.remaining := by
    rw [heq, filled_nil, add_zero]
  cases h with
  | same =>
    refine ⟨by simp, fun id o o' ho ho' => ?_⟩
    obtain rfl := Option.some.inj (ho.symm.trans ho')
    exact hsame rfl
  | entered x hid =>
    refine ⟨by simp, fun id o o' ho ho' => ?_⟩
    have hne : id ≠ x.orderId := by
      rintro rfl
      exact hid (mem_of_lookup ho)
    rw [orders_place, AList.lookup_insert_ne hne] at ho'
    obtain rfl := Option.some.inj (ho.symm.trans ho')
    exact hsame rfl
  | cancelled a x hx =>
    refine ⟨by simp, fun id o o' ho ho' => ?_⟩
    rw [orders_markCancelled, lookup_insert_eq] at ho'
    split_ifs at ho' with ha
    · subst ha
      obtain rfl := Option.some.inj (ho.symm.trans hx)
      obtain rfl := Option.some.inj ho'
      exact hsame rfl
    · obtain rfl := Option.some.inj (ho.symm.trans ho')
      exact hsame rfl
  | matched side q =>
    obtain ⟨_, hs⟩ := matchMarketOrder_settles hk hp side q
    obtain ⟨new, rfl, hnew, -, hfilled⟩ := hs.fills
    exact ⟨hnew, hfilled⟩

/-- An order that the book did not have has just entered. -/
theorem mem_orders (h : b.Change E b' fills) (hk : Keyed b.orders) (hp : Positive b.orders)
    {id : Str} {o : Order P} (ho : b'.orders.lookup id = some o) :
    id ∈ b.orders ∨ fills = [] ∧ E o := by
  cases h with
  | same => exact Or.inl (mem_of_lookup ho)
  | entered x _ hx =>
    rw [orders_place, lookup_insert_eq] at ho
    split_ifs at ho with hid
    · exact Or.inr ⟨rfl, Option.some.inj ho ▸ hx⟩
    · exact Or.inl (mem_of_lookup ho)
  | cancelled a x hx =>
    rw [orders_markCancelled, lookup_insert_eq] at ho
    split_ifs at ho with hid
    · exact Or.inl (hid ▸ mem_of_lookup hx)
    · exact Or.inl (mem_of_lookup ho)
  | matched side q =>
    obtain ⟨_, hs⟩ := matchMarketOrder_settles hk hp side q
    exact Or.inl (hs.mem id (mem_of_lookup ho))

/-- Only an order that enters comes into a queue. -/
theorem queued (h : b.Change E b' fills) {id : Str} (hid : id ∈ b.orders) (hq : b'.Queued id) :
    b.Queued id := by
  obtain ⟨p, hq⟩ := hq
  cases h with
  | same => exact ⟨p, hq⟩
  | entered o hnew =>
    have hne : id ∉ [o.orderId] := fun hmem => hnew (List.mem_singleton.mp hmem ▸ hid)
    rw [queueAt_bids_place, queueAt_asks_place] at hq
    refine ⟨p, hq.imp (fun h => ?_) fun h => ?_⟩
    · split_ifs at h
      exacts [(List.mem_append.mp h).resolve_right hne, h]
    · split_ifs at h
      exacts [(List.mem_append.mp h).resolve_right hne, h]
  | cancelled a o =>
    rw [queueAt_bids_markCancelled, queueAt_asks_markCancelled] at hq
    refine ⟨p, hq.imp (fun h => ?_) fun h => ?_⟩
    · split_ifs at h
      exacts [List.mem_of_mem_erase h, h]
    · split_ifs at h
      exacts [List.mem_of_mem_erase h, h]
  | matched side q =>
    rw [matchMarketOrder] at hq
    split_ifs at hq
    · exact ⟨p, hq.imp_right ((queueAt_matchSide_sublist b.asks _ p).subset ·)⟩
    · exact ⟨p, hq.imp_left ((queueAt_matchSide_sublist b.bids _ p).subset ·)⟩

theorem housed (h : b.Change E b' fills) (hE : ∀ o, E o → 0 < o.remaining) (hb : b.Housed) :
    b'.Housed := by
  have hage := h.ages hb.keyed hb.positive
  cases h with
  | same => exact hb
  | entered o hid ho => exact hb.place (hb.not_queued hid) (hE o ho)
  | cancelled id o ho hc =>
    have hkeyed : Keyed (b.markCancelled id o).orders := by
      rw [orders_markCancelled]
      exact keyed_insert hb.keyed (hb.keyed id o ho)
    have hpositive : Positive (b.markCancelled id o).orders := by
      rw [orders_markCancelled]
      exact hb.positive.insert id (hb.positive id o ho).1 fun hf => absurd hf (by simp)
    refine ⟨hkeyed, hpositive, hb.bids.shrink hage fun p => ?_, hb.asks.shrink hage fun p => ?_⟩
    · rw [queueAt_bids_markCancelled]
      split_ifs
      exacts [List.erase_sublist, .refl _]
    · rw [queueAt_asks_markCancelled]
      split_ifs
      exacts [List.erase_sublist, .refl _]
  | matched side q =>
    obtain ⟨_, hs⟩ := matchMarketOrder_settles hb.keyed hb.positive side q
    refine ⟨hs.keyed, hs.positive, hb.bids.shrink hage fun p => ?_, hb.asks.shrink hage fun p => ?_⟩
    · rw [matchMarketOrder]
      split_ifs
      exacts [.refl _, queueAt_matchSide_sublist b.bids _ p]
    · rw [matchMarketOrder]
      split_ifs
      exacts [queueAt_matchSide_sublist b.asks _ p, .refl _]

theorem inv (h : b.Change E b' fills) (hE : ∀ o, E o → o.isCancelled = false ∧ 0 < o.remaining)
    (hb : b.Inv) : b'.Inv := by
  cases h with
  | same => exact hb
  | entered o hid ho => exact hb.place hid (hE o ho).1 (hE o ho).2
  | cancelled id o ho hc => exact hb.markCancelled ho hc
  | matched side q => exact hb.matchMarketOrder side q

end Change

/-- A cancelled order leaves its only queue. -/
theorem not_queued_markCancelled (hbids : SideHoused b.orders b.bids IsBid)
    (hasks : SideHoused b.orders b.asks IsAsk) {id : Str} {o : Order P}
    (ho : b.orders.lookup id = some o) : ¬ (b.markCancelled id o).Queued id := by
  rintro ⟨p, hq | hq⟩
  · rw [queueAt_bids_markCancelled] at hq
    split_ifs at hq with hown
    · exact (hbids.nodup p).not_mem_erase hq
    · exact hbids.notMem_queueAt_of_lookup ho hown hq
  · rw [queueAt_asks_markCancelled] at hq
    split_ifs at hq with hown
    · exact (hasks.nodup p).not_mem_erase hq
    · exact hasks.notMem_queueAt_of_lookup ho hown hq

/-- An id is queued on one side only. -/
theorem disjoint_queuedIds (hbids : SideHoused b.orders b.bids IsBid)
    (hasks : SideHoused b.orders b.asks IsAsk) :
    (queuedIds b.bids.entries).Disjoint (queuedIds b.asks.entries) := by
  intro id hbid hask
  obtain ⟨p, hbid⟩ := mem_queuedIds_iff.mp hbid
  obtain ⟨p', hask⟩ := mem_queuedIds_iff.mp hask
  obtain ⟨o, ho, hs, -⟩ := hbids.located p id hbid
  obtain ⟨o', ho', hs', -⟩ := hasks.located p' id hask
  obtain rfl := Option.some.inj (ho.symm.trans ho')
  exact hs' hs

/-- What a market order leaves in the queues keeps its flag. -/
theorem flag_matchMarketOrder (hbids : SideHoused b.orders b.bids IsBid)
    (hasks : SideHoused b.orders b.asks IsAsk) (side : Side) (q : ℤ) {id : Str}
    (hq : (b.matchMarketOrder side q).1.Queued id) :
    ((b.matchMarketOrder side q).1.orders.lookup id).map Order.isCancelled =
      (b.orders.lookup id).map Order.isCancelled := by
  have hsides := disjoint_queuedIds hbids hasks
  obtain ⟨p, hq⟩ := hq
  rw [matchMarketOrder] at hq ⊢
  split_ifs at hq ⊢ with hs
  · rcases hq with hq | hq
    · have hout : id ∉ queuedIds b.asks.entries := hsides (mem_queuedIds_iff.mpr ⟨p, hq⟩)
      exact congrArg _ (matchLevels_frame b.asks.entries ⟨b.orders, q, []⟩ hout)
    · have hleft : id ∈ queuedIds (matchSide b.asks ⟨b.orders, q, []⟩).1.entries :=
        mem_queuedIds_iff.mpr ⟨p, hq⟩
      exact matchLevels_flag b.asks.entries ⟨b.orders, q, []⟩ hasks.nodup_queuedIds hleft
  · rcases hq with hq | hq
    · have hleft : id ∈ queuedIds (matchSide b.bids ⟨b.orders, q, []⟩).1.entries :=
        mem_queuedIds_iff.mpr ⟨p, hq⟩
      exact matchLevels_flag b.bids.entries ⟨b.orders, q, []⟩ hbids.nodup_queuedIds hleft
    · have hout : id ∉ queuedIds b.bids.entries := fun h =>
        hsides h (mem_queuedIds_iff.mpr ⟨p, hq⟩)
      exact congrArg _ (matchLevels_frame b.bids.entries ⟨b.orders, q, []⟩ hout)

theorem Housed.new : (OrderBook.new : OrderBook P).Housed where
  keyed id o ho := by simp [OrderBook.new] at ho
  positive id o ho := by simp [OrderBook.new] at ho
  bids := .empty
  asks := .empty

/-- An order that is flagged is in no queue. -/
def Settled (b : OrderBook P) (id : Str) : Prop :=
  ∀ o, b.orders.lookup id = some o → o.isCancelled = true → ¬ b.Queued id

/-- Once an order is out of the queues when it is flagged, or not flagged yet, it stays so. -/
theorem Change.settled (h : b.Change E b' fills) (hb : b.Housed) {id : Str} (hid : id ∈ b.orders)
    (hs : b.Settled id) : b'.Settled id := by
  intro o' ho' hc' hq'
  have hq := h.queued hid hq'
  obtain ⟨o, ho⟩ := exists_lookup hid
  have hc : o.isCancelled = false := Bool.eq_false_iff.mpr fun hc => hs o ho hc hq
  have hdiff : b'.orders.lookup id ≠ b.orders.lookup id := fun heq => by
    obtain rfl := Option.some.inj (ho'.symm.trans (heq.trans ho))
    rw [hc] at hc'
    cases hc'
  cases h with
  | same => exact hdiff rfl
  | entered x hnew =>
    refine hdiff ?_
    rw [orders_place]
    exact AList.lookup_insert_ne fun heq => hnew (heq ▸ hid)
  | cancelled a x hx =>
    by_cases ha : id = a
    · subst ha
      exact not_queued_markCancelled hb.bids hb.asks hx hq'
    · refine hdiff ?_
      rw [orders_markCancelled]
      exact AList.lookup_insert_ne ha
  | matched side q =>
    have hflag := flag_matchMarketOrder hb.bids hb.asks side q hq'
    rw [ho, ho', Option.map_some, Option.map_some, hc, hc'] at hflag
    simp at hflag

end OrderBook

/-! ### Runs with fills -/

/-- A book and all the fills it has returned. -/
structure TradedBook (P : Type*) [LinearOrder P] where
  book : OrderBook P
  fills : List (Fill P)

/-- The runs of one book from empty, orders entering without fills. -/
def tradeSystem (P : Type*) [LinearOrder P] : TransitionSystem (TradedBook P) (BookOp P) where
  init := ⟨OrderBook.new, []⟩
  enabled t op := op.Enters t.book
  step t op := ⟨op.apply t.book, t.fills ++ op.fills t.book⟩

namespace TradedBook

variable [LinearOrder P] {t t' : TradedBook P}

/-- The invariant of the runs: what remains of an order and what was filled of it make up its
quantity. -/
structure Inv (t : TradedBook P) : Prop where
  housed : t.book.Housed
  known : ∀ f ∈ t.fills, f.orderId ∈ t.book.orders
  conserved : ∀ id o, t.book.orders.lookup id = some o →
    o.remaining + filled t.fills id = o.quantity

theorem Inv.init : (⟨OrderBook.new, []⟩ : TradedBook P).Inv where
  housed := .new
  known _ hf := absurd hf List.not_mem_nil
  conserved id o ho := by simp [OrderBook.new] at ho

theorem Inv.step (h : t.Inv) (op : BookOp P) (hop : op.Enters t.book) :
    ((tradeSystem P).step t op).Inv := by
  have hchange := OrderBook.change_apply op hop
  have hk := h.housed.keyed
  have hp := h.housed.positive
  have hage := hchange.ages hk hp
  obtain ⟨hfills, hfilled⟩ := hchange.fills_spec hk hp
  have hkept (id : Str) (hid : id ∈ t.book.orders) : id ∈ (op.apply t.book).orders := by
    obtain ⟨o, ho⟩ := exists_lookup hid
    obtain ⟨o', ho', -⟩ := hage id o ho
    exact mem_of_lookup ho'
  refine ⟨hchange.housed (fun o ho => ho.1 ▸ ho.2) h.housed, fun f hf => ?_, fun id o' ho' => ?_⟩
  · rcases List.mem_append.mp hf with hf | hf
    · exact hkept _ (h.known f hf)
    · obtain ⟨-, o, ho, -⟩ := hfills f hf
      exact hkept _ (mem_of_lookup ho)
  · change o'.remaining + filled (t.fills ++ op.fills t.book) id = o'.quantity
    by_cases hid : id ∈ t.book.orders
    · obtain ⟨o, ho⟩ := exists_lookup hid
      obtain ⟨x, hx, ha⟩ := hage id o ho
      obtain rfl := Option.some.inj (hx.symm.trans ho')
      rw [filled_append, add_comm (filled t.fills id), ← add_assoc, hfilled id o x ho ho',
        h.conserved id o ho, ha.quantity]
    · -- The order enters in this step: no fill has named it yet.
      obtain ⟨hnil, hrem, -⟩ := (hchange.mem_orders hk hp ho').resolve_left hid
      have hnone : filled t.fills id = 0 :=
        filled_of_forall_ne fun f hf heq => hid (heq ▸ h.known f hf)
      rw [hnil, List.append_nil, hnone, hrem, add_zero]

theorem inv_of_reachable (h : (tradeSystem P).Reachable t) : t.Inv :=
  h.invariant .init fun _ op _ ht hop => ht.step op hop

/-- The order `id`, which is `o` in `t`, is `o'` in the later state `t'`. -/
structure LifeCycle (t t' : TradedBook P) (id : Str) (o o' : Order P) : Prop where
  orderId : o'.orderId = id
  side : o'.side = o.side
  price : o'.price = o.price
  quantity : o'.quantity = o.quantity
  nonneg : 0 ≤ o'.remaining
  conserved : o'.remaining + filled t'.fills id = o'.quantity
  remaining_le : o'.remaining ≤ o.remaining
  flag_of_filled : o'.remaining = 0 → o'.isCancelled = true
  flag_kept : o.isCancelled = true → o'.isCancelled = true
  /-- When the flag has been set in between, the order is in no queue. -/
  not_queued : o.isCancelled = false → o'.isCancelled = true → ¬ t'.book.Queued id
  /-- A flagged order has no more fills. -/
  no_fill : ∃ new, t'.fills = t.fills ++ new ∧
    (o.isCancelled = true → ∀ f ∈ new, f.orderId ≠ id)

/-- **Order life cycle.** Between any two moments of a run, an order keeps its id, side, price and
quantity; its remaining quantity and its fills make up the quantity, and no more remains than
before; its flag stays once it is set, and then the order has no more fills and is in no queue. -/
theorem lifeCycle_of_reaches (h : (tradeSystem P).Reachable t)
    (h' : (tradeSystem P).Reaches t t') {id : Str} {o : Order P}
    (ho : t.book.orders.lookup id = some o) :
    ∃ o', t'.book.orders.lookup id = some o' ∧ LifeCycle t t' id o o' := by
  have hlater : t'.Inv ∧ (∃ o', t'.book.orders.lookup id = some o' ∧ o.Ages o') ∧
      (o.isCancelled = false → t'.book.Settled id) ∧
      ∃ new, t'.fills = t.fills ++ new ∧
        (o.isCancelled = true → ∀ f ∈ new, f.orderId ≠ id) := by
    refine h'.invariant (I := fun s : TradedBook P => s.Inv ∧
      (∃ o', s.book.orders.lookup id = some o' ∧ o.Ages o') ∧
      (o.isCancelled = false → s.book.Settled id) ∧
      ∃ new, s.fills = t.fills ++ new ∧ (o.isCancelled = true → ∀ f ∈ new, f.orderId ≠ id))
      ⟨inv_of_reachable h, ⟨o, ho, .refl o⟩, fun hc x hx hxc => ?_, [], by simp, by simp⟩ ?_
    · obtain rfl := Option.some.inj (hx.symm.trans ho)
      rw [hc] at hxc
      cases hxc
    · rintro s op ⟨hs, ⟨x, hx, hage⟩, hsettled, new, hnew, hnone⟩ hop
      have hchange := OrderBook.change_apply op hop
      obtain ⟨hfills, -⟩ := hchange.fills_spec hs.housed.keyed hs.housed.positive
      obtain ⟨x', hx', hage'⟩ := hchange.ages hs.housed.keyed hs.housed.positive id x hx
      refine ⟨hs.step op hop, ⟨x', hx', hage.trans hage'⟩, fun hc => ?_, new ++ op.fills s.book, ?_,
        fun hc f hf => ?_⟩
      · exact hchange.settled hs.housed (mem_of_lookup hx) (hsettled hc)
      · change s.fills ++ op.fills s.book = _
        rw [hnew, List.append_assoc]
      · rcases List.mem_append.mp hf with hf | hf
        · exact hnone hc f hf
        · rintro rfl
          obtain ⟨-, y, hy, hyc⟩ := hfills f hf
          obtain rfl := Option.some.inj (hy.symm.trans hx)
          rw [hage.isCancelled hc] at hyc
          cases hyc
  obtain ⟨hinv, ⟨o', ho', hage⟩, hsettled, hnew⟩ := hlater
  have hpos := hinv.housed.positive id o' ho'
  refine ⟨o', ho', hinv.housed.keyed id o' ho', hage.side, hage.price, hage.quantity, hpos.1,
    hinv.conserved id o' ho', hage.remaining_le, fun hzero => ?_, hage.isCancelled,
    fun hc => hsettled hc o' ho', hnew⟩
  by_contra hc
  exact (hpos.2 (Bool.eq_false_iff.mpr hc)).ne' hzero

/-- An ask that a market order fills to the end, and that is then sent again by another node. -/
theorem lifeCycle_of_reaches_filled :
    let o : Order ℤ := ⟨[97], [49], Side.sell, 100, 4, 4, 1, false⟩
    let t := (tradeSystem ℤ).step (tradeSystem ℤ).init (.addOrder o)
    let t' := (tradeSystem ℤ).step ((tradeSystem ℤ).step t (.matchMarketOrder Side.buy 6))
      (.insertReplicatedOrder o)
    ∃ o', t'.book.orders.lookup [97] = some o' ∧ LifeCycle t t' [97] o o' := by
  intro o t t'
  have h := Reachable.init (T := tradeSystem ℤ) |>.step (.addOrder o)
    ⟨AList.notMem_empty _, rfl, by decide⟩
  have h' := (Reaches.refl (T := tradeSystem ℤ) (s := t) |>.step
    (.matchMarketOrder Side.buy 6) trivial).step (.insertReplicatedOrder o) ⟨rfl, by decide⟩
  exact lifeCycle_of_reaches h h' rfl

end TradedBook

end Convergence
