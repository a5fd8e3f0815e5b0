import Convergence.OrderBook.Levels
import Convergence.Library.TransitionSystem

/-!
# The representation invariant of the order book

The runs of one order book under its five mutators, and the invariant that ties the order table to
the two price maps: each price map represents queues that contain, once each, the orders of its side
that are not cancelled, under their own prices.

## Main definitions

* `SideInv`, `OrderBook.Inv`: the invariant.
* `BookOp`, `bookSystem`: the mutators as labels, and their runs from the empty book.
* `OrderBook.Consistent`: what the invariant says about levels, totals and queues.

## Main results

* `OrderBook.Inv.place`, `OrderBook.Inv.markCancelled`, `OrderBook.Inv.matchMarketOrder`: what each
  mutator preserves.
* `OrderBook.inv_of_reachable`, `OrderBook.consistent_of_reachable`.
-/

namespace Convergence

open TransitionSystem

variable {P : Type*}

/-- An entry of the table after matching: untouched, or a reduced order. -/
theorem MatchedTable.lookup_after {before after : OrderTable P} {ids : List Str}
    (hm : MatchedTable before after ids) (hids : ∀ id ∈ ids, isActiveAt before id = true)
    {id : Str} {x : Order P} (hx : after.lookup id = some x) :
    (id ∉ ids ∧ before.lookup id = some x) ∨
      (id ∈ ids ∧ ∃ o, before.lookup id = some o ∧ o.isCancelled = false ∧ o.ReducedTo x) := by
  by_cases hid : id ∈ ids
  · obtain ⟨o, ho, hc, -⟩ := isActiveAt_iff.mp (hids id hid)
    obtain ⟨o', ho', hred⟩ := hm.reduced id hid o ho
    obtain rfl : o' = x := Option.some.inj (ho'.symm.trans hx)
    exact Or.inr ⟨hid, o, ho, hc, hred⟩
  · exact Or.inl ⟨hid, (hm.frame id hid).symm.trans hx⟩

theorem Order.ReducedTo.fields {o o' : Order P} (h : o.ReducedTo o') :
    o'.orderId = o.orderId ∧ o'.nodeId = o.nodeId ∧ o'.side = o.side ∧ o'.price = o.price ∧
      o'.quantity = o.quantity ∧ o'.timestamp = o.timestamp := by
  rw [h.1]
  simp

theorem Order.ReducedTo.isCancelled_iff {o o' : Order P} (h : o.ReducedTo o') :
    o'.isCancelled = true ↔ o'.remaining = 0 := by
  rw [h.1]
  simp

/-- An id that the table does not have is not that of an order that can still be filled. -/
theorem flagged_of_notMem {orders : OrderTable P} {id : Str} (hid : id ∉ orders) (o : Order P)
    (ho : orders.lookup id = some o) : o.isCancelled = true := by
  rw [AList.lookup_eq_none.mpr hid] at ho
  cases ho

/-! ### One side -/

/-- The invariant of one price map. Its levels represent their queues, and a queue holds, once each,
the orders of the side `own` that are not cancelled and have its price. -/
structure SideInv [DecidableEq P] {r : P → P → Prop} (orders : OrderTable P)
    (levels : SortedMap r (PriceLevel P)) (own : Side → Prop) : Prop where
  represents : Represents orders levels (queueAt levels)
  nodup : ∀ p, (queueAt levels p).Nodup
  mem_iff : ∀ p id, id ∈ queueAt levels p ↔
    ∃ o, orders.lookup id = some o ∧ o.isCancelled = false ∧ own o.side ∧ o.price = p

namespace SideInv

variable [DecidableEq P] {r : P → P → Prop} {orders : OrderTable P}
  {levels : SortedMap r (PriceLevel P)} {own : Side → Prop}

theorem of_represents {q : P → List Str} (hq : Represents orders levels q)
    (hnd : ∀ p, (q p).Nodup)
    (hmem : ∀ p id, id ∈ q p ↔
      ∃ o, orders.lookup id = some o ∧ o.isCancelled = false ∧ own o.side ∧ o.price = p) :
    SideInv orders levels own where
  represents := hq.self
  nodup p := hq.queueAt_eq p ▸ hnd p
  mem_iff p id := hq.queueAt_eq p ▸ hmem p id

/-- The queue of an order that is not cancelled. -/
theorem mem_of_lookup (h : SideInv orders levels own) {id : Str} {o : Order P}
    (ho : orders.lookup id = some o) (hc : o.isCancelled = false) (hs : own o.side) :
    id ∈ queueAt levels o.price :=
  (h.mem_iff _ _).mpr ⟨o, ho, hc, hs, rfl⟩

theorem price_unique (h : SideInv orders levels own) {p p' : P} {id : Str}
    (hid : id ∈ queueAt levels p) (hid' : id ∈ queueAt levels p') : p = p' := by
  obtain ⟨o, ho, -, -, rfl⟩ := (h.mem_iff p id).mp hid
  obtain ⟨o', ho', -, -, rfl⟩ := (h.mem_iff p' id).mp hid'
  rw [Option.some.inj (ho.symm.trans ho')]

theorem empty : SideInv (∅ : OrderTable P) (SortedMap.empty : SortedMap r (PriceLevel P)) own :=
  .of_represents .empty (fun _ => List.nodup_nil) fun p id => by simp

/-- A side whose orders keep their entries is not affected by what happens to the table. -/
theorem congr_orders (h : SideInv orders levels own) {orders' : OrderTable P}
    (hf : ∀ p, ∀ id ∈ queueAt levels p, orders'.lookup id = orders.lookup id)
    (hnew : ∀ id o, orders'.lookup id = some o → o.isCancelled = false → own o.side →
      orders.lookup id = some o) : SideInv orders' levels own where
  represents := h.represents.congr_orders hf
  nodup := h.nodup
  mem_iff p id := by
    constructor
    · intro hid
      obtain ⟨o, ho, hc, hs, hp⟩ := (h.mem_iff p id).mp hid
      exact ⟨o, (hf p id hid).trans ho, hc, hs, hp⟩
    · rintro ⟨o, ho, hc, hs, hp⟩
      exact (h.mem_iff p id).mpr ⟨o, hnew id o ho hc hs, hc, hs, hp⟩

section Update

variable [DecidableRel r] [IsStrictTotalOrder P r]

/-- A new order may also take the id of one that is flagged, since no queue holds that. -/
theorem push_of_flagged (h : SideInv orders levels own) {o : Order P}
    (hold : ∀ x, orders.lookup o.orderId = some x → x.isCancelled = true)
    (hc : o.isCancelled = false) (hs : own o.side) :
    SideInv (orders.insert o.orderId o) (levels.upsert o.price (PriceLevel.push o)) own := by
  have hnot (p : P) : o.orderId ∉ queueAt levels p := fun hmem => by
    obtain ⟨x, hx, hxc, -⟩ := (h.mem_iff p _).mp hmem
    rw [hold x hx] at hxc
    cases hxc
  refine .of_represents (h.represents.push o hnot) (fun p => ?_) fun p id => ?_
  · by_cases hp : p = o.price
    · subst hp
      rw [Function.update_self]
      exact (h.nodup _).append (List.nodup_singleton _) (by simpa using hnot _)
    · rw [Function.update_of_ne hp]
      exact h.nodup p
  · simp only [lookup_insert_eq]
    by_cases hp : p = o.price
    · subst hp
      rw [Function.update_self, List.mem_append, List.mem_singleton, h.mem_iff]
      split_ifs with hid'
      · exact iff_of_true (Or.inr hid') ⟨o, rfl, hc, hs, rfl⟩
      · simp [hid']
    · rw [Function.update_of_ne hp]
      split_ifs with hid'
      · subst hid'
        refine iff_of_false (hnot p) ?_
        rintro ⟨x, hx, -, -, hxp⟩
        exact hp (hxp.symm.trans (congrArg Order.price (Option.some.inj hx)).symm)
      · exact h.mem_iff p id

theorem cancel (h : SideInv orders levels own) {id : Str} {o : Order P}
    (ho : orders.lookup id = some o) (hc : o.isCancelled = false) (hs : own o.side) :
    SideInv (orders.insert id { o with isCancelled := true })
      (removeFromLevel levels (orders.insert id { o with isCancelled := true }) id o.price)
      own := by
  set orders' := orders.insert id { o with isCancelled := true } with horders'
  have hrep : Represents orders' levels (queueAt levels) :=
    h.represents.congr_remaining (remainingOf_insert_flag ho)
  refine .of_represents (hrep.removeFromLevel (h.mem_of_lookup ho hc hs)) (fun p => ?_)
    fun p a => ?_
  · by_cases hp : p = o.price
    · subst hp
      rw [Function.update_self]
      exact (h.nodup _).erase _
    · rw [Function.update_of_ne hp]
      exact h.nodup p
  · simp only [horders', lookup_insert_eq]
    by_cases hp : p = o.price
    · subst hp
      rw [Function.update_self, (h.nodup _).mem_erase_iff, h.mem_iff]
      split_ifs with ha
      · simp [ha]
      · simp [ha]
    · rw [Function.update_of_ne hp, h.mem_iff]
      split_ifs with ha
      · subst ha
        simp [ho, Ne.symm hp]
      · rfl

end Update

/-- Every queued order is active. -/
theorem isActiveAt (h : SideInv orders levels own)
    (hpos : ∀ id o, orders.lookup id = some o → o.isCancelled = false → 0 < o.remaining) (p : P) :
    ∀ id ∈ queueAt levels p, isActiveAt orders id = true := fun id hid => by
  obtain ⟨o, ho, hc, -, -⟩ := (h.mem_iff p id).mp hid
  exact isActiveAt_iff.mpr ⟨o, ho, hc, hpos id o ho hc⟩

section Match

variable [Std.Irrefl r]

theorem matchedTable (h : SideInv orders levels own) (q : ℤ) (fills : List (Fill P))
    (hpos : ∀ id o, orders.lookup id = some o → o.isCancelled = false → 0 < o.remaining) :
    MatchedTable orders (matchSide levels ⟨orders, q, fills⟩).2.orders
      (queuedIds levels.entries) :=
  (h.represents.matchSide (s := ⟨orders, q, fills⟩) h.nodup (fun _ _ _ => h.price_unique)
    (h.isActiveAt hpos)).2

theorem mem_queuedIds (h : SideInv orders levels own) {id : Str} :
    id ∈ queuedIds levels.entries ↔
      ∃ o, orders.lookup id = some o ∧ o.isCancelled = false ∧ own o.side := by
  rw [h.represents.mem_queuedIds]
  simp only [h.mem_iff]
  constructor
  · rintro ⟨-, o, ho, hc, hs, -⟩
    exact ⟨o, ho, hc, hs⟩
  · rintro ⟨o, ho, hc, hs⟩
    exact ⟨o.price, o, ho, hc, hs, rfl⟩

theorem isActiveAt_queuedIds (h : SideInv orders levels own)
    (hpos : ∀ id o, orders.lookup id = some o → o.isCancelled = false → 0 < o.remaining) :
    ∀ id ∈ queuedIds levels.entries, Convergence.isActiveAt orders id = true := fun id hid => by
  obtain ⟨o, ho, hc, -⟩ := h.mem_queuedIds.mp hid
  exact isActiveAt_iff.mpr ⟨o, ho, hc, hpos id o ho hc⟩

/-- The matched side. -/
theorem matchSide (h : SideInv orders levels own) (q : ℤ) (fills : List (Fill P))
    (hpos : ∀ id o, orders.lookup id = some o → o.isCancelled = false → 0 < o.remaining) :
    SideInv (matchSide levels ⟨orders, q, fills⟩).2.orders (matchSide levels ⟨orders, q, fills⟩).1
      own := by
  have hm := h.matchedTable q fills hpos
  have hrep := (h.represents.matchSide (s := ⟨orders, q, fills⟩) h.nodup
    (fun _ _ _ => h.price_unique) (h.isActiveAt hpos)).1
  refine .of_represents hrep (fun p => (h.nodup p).filter _) fun p id => ?_
  rw [List.mem_filter, isActiveAt_iff]
  constructor
  · rintro ⟨hid, x, hx, hc, -⟩
    obtain ⟨o, ho, -, hs, rfl⟩ := (h.mem_iff p id).mp hid
    obtain ⟨o', ho', hred⟩ := hm.reduced id (h.represents.mem_queuedIds.mpr ⟨_, hid⟩) o ho
    obtain rfl : o' = x := Option.some.inj (ho'.symm.trans hx)
    obtain ⟨-, -, hside, hprice, -⟩ := hred.fields
    exact ⟨o', hx, hc, hside ▸ hs, hprice⟩
  · rintro ⟨x, hx, hc, hs, rfl⟩
    rcases hm.lookup_after (h.isActiveAt_queuedIds hpos) hx with ⟨hid, ho⟩ | ⟨hid, o, ho, hoc, hred⟩
    · exact absurd (h.mem_queuedIds.mpr ⟨x, ho, hc, hs⟩) hid
    · obtain ⟨-, -, hside, hprice, -⟩ := hred.fields
      refine ⟨(h.mem_iff _ _).mpr ⟨o, ho, hoc, hside ▸ hs, hprice.symm⟩, x, hx, hc, ?_⟩
      have hne : x.remaining ≠ 0 := fun hz => by
        rw [hred.isCancelled_iff.mpr hz] at hc
        cases hc
      have hnonneg := hred.2.1
      omega

end Match

end SideInv

/-! ### The whole book -/

/-- The side of a bid, as `add_order` and `remove_order_from_level` decide it. -/
def IsBid (s : Side) : Prop := s = Side.buy

/-- The side of an ask: every side that is not `BUY`. -/
def IsAsk (s : Side) : Prop := s ≠ Side.buy

instance (s : Side) : Decidable (IsBid s) := inferInstanceAs (Decidable (_ = _))

instance (s : Side) : Decidable (IsAsk s) := inferInstanceAs (Decidable (¬ _))

/-- The invariant of a book. -/
structure OrderBook.Inv [LinearOrder P] (b : OrderBook P) : Prop where
  keyed : Keyed b.orders
  pos : ∀ id o, b.orders.lookup id = some o → o.isCancelled = false → 0 < o.remaining
  bids : SideInv b.orders b.bids IsBid
  asks : SideInv b.orders b.asks IsAsk

namespace OrderBook

variable [LinearOrder P] {b : OrderBook P}

theorem Inv.new : (OrderBook.new : OrderBook P).Inv where
  keyed id o ho := by simp [OrderBook.new] at ho
  pos id o ho := by simp [OrderBook.new] at ho
  bids := .empty
  asks := .empty

/-- A new order on the other side leaves a side alone. -/
private theorem foreign_insert {r : P → P → Prop} {orders : OrderTable P}
    {levels : SortedMap r (PriceLevel P)} {own : Side → Prop} (h : SideInv orders levels own)
    {id : Str} {o : Order P} (hown : ¬ own o.side)
    (hold : ∀ x, orders.lookup id = some x → x.isCancelled = false → ¬ own x.side) :
    SideInv (orders.insert id o) levels own := by
  refine h.congr_orders (fun p a ha => AList.lookup_insert_ne fun heq => ?_) fun a x hx hc hs => ?_
  · subst heq
    obtain ⟨x, hx, hc, hs, -⟩ := (h.mem_iff p a).mp ha
    exact hold x hx hc hs
  · rw [lookup_insert_eq] at hx
    split_ifs at hx with ha
    · obtain rfl := Option.some.inj hx
      exact absurd hs hown
    · exact hx

/-- Storing and queueing a new active order, whose id may be that of a flagged one. -/
theorem Inv.place_of_flagged (h : b.Inv) {o : Order P}
    (hold : ∀ x, b.orders.lookup o.orderId = some x → x.isCancelled = true)
    (hc : o.isCancelled = false) (hr : 0 < o.remaining) : (b.place o).Inv := by
  have hnone {own : Side → Prop} (x : Order P) (hx : b.orders.lookup o.orderId = some x)
      (hxc : x.isCancelled = false) : ¬ own x.side := by
    rw [hold x hx] at hxc
    cases hxc
  have hkeyed : Keyed (b.orders.insert o.orderId o) := keyed_insert h.keyed rfl
  have hpos : ∀ id x, (b.orders.insert o.orderId o).lookup id = some x → x.isCancelled = false →
      0 < x.remaining := fun id x hx hxc => by
    rw [lookup_insert_eq] at hx
    split_ifs at hx with ha
    · rw [← Option.some.inj hx]
      exact hr
    · exact h.pos id x hx hxc
  rw [OrderBook.place]
  split_ifs with hs
  · exact ⟨hkeyed, hpos, h.bids.push_of_flagged hold hc hs,
      foreign_insert h.asks (not_not.mpr hs) hnone⟩
  · exact ⟨hkeyed, hpos, foreign_insert h.bids hs hnone,
      h.asks.push_of_flagged hold hc hs⟩

/-- Storing and queueing a new active order. -/
theorem Inv.place (h : b.Inv) {o : Order P} (hid : o.orderId ∉ b.orders)
    (hc : o.isCancelled = false) (hr : 0 < o.remaining) : (b.place o).Inv :=
  h.place_of_flagged (flagged_of_notMem hid) hc hr

/-- Flagging an order that is not cancelled and taking it out of its level. -/
theorem Inv.markCancelled (h : b.Inv) {id : Str} {o : Order P} (ho : b.orders.lookup id = some o)
    (hc : o.isCancelled = false) : (b.markCancelled id o).Inv := by
  set o' : Order P := { o with isCancelled := true } with ho'
  have hkeyed : Keyed (b.orders.insert id o') := keyed_insert h.keyed (h.keyed id o ho)
  have hpos : ∀ a x, (b.orders.insert id o').lookup a = some x → x.isCancelled = false →
      0 < x.remaining := fun a x hx hxc => by
    rw [lookup_insert_eq] at hx
    split_ifs at hx with ha
    · rw [← Option.some.inj hx] at hxc
      cases hxc
    · exact h.pos a x hx hxc
  have hold {own : Side → Prop} (hown : ¬ own o.side) :
      ∀ x, b.orders.lookup id = some x → x.isCancelled = false → ¬ own x.side := fun x hx _ => by
    rwa [← Option.some.inj (ho.symm.trans hx)]
  rw [OrderBook.markCancelled, removeOrderFromLevel]
  split_ifs with hs
  · exact ⟨hkeyed, hpos, h.bids.cancel ho hc hs,
      foreign_insert h.asks (not_not.mpr hs) (hold (not_not.mpr hs))⟩
  · exact ⟨hkeyed, hpos, foreign_insert h.bids hs (hold hs), h.asks.cancel ho hc hs⟩

/-- Matching one side keeps the table invariants and leaves the other side alone. -/
private theorem foreign_match {r r' : P → P → Prop} [Std.Irrefl r]
    {levels : SortedMap r (PriceLevel P)}
    {levels' : SortedMap r' (PriceLevel P)} {own own' : Side → Prop} {s : MatchState P}
    (h : SideInv s.orders levels own) (h' : SideInv s.orders levels' own')
    (hdisj : ∀ side, own side → ¬ own' side)
    (hpos : ∀ id o, s.orders.lookup id = some o → o.isCancelled = false → 0 < o.remaining) :
    SideInv (matchSide levels s).2.orders levels' own' := by
  have hm := h.matchedTable s.remaining s.fills hpos
  refine h'.congr_orders (fun p id hid => hm.frame id fun hin => ?_) fun id x hx hc hs => ?_
  · obtain ⟨o, ho, -, hown, -⟩ := (h'.mem_iff p id).mp hid
    obtain ⟨o', ho', -, hown'⟩ := h.mem_queuedIds.mp hin
    obtain rfl : o = o' := Option.some.inj (ho.symm.trans ho')
    exact hdisj _ hown' hown
  · rcases hm.lookup_after (h.isActiveAt_queuedIds hpos) hx with ⟨-, ho⟩ | ⟨hid, o, ho, -, hred⟩
    · exact ho
    · obtain ⟨o', ho', -, hown'⟩ := h.mem_queuedIds.mp hid
      obtain rfl : o = o' := Option.some.inj (ho.symm.trans ho')
      exact absurd (hred.fields.2.2.1 ▸ hs) (hdisj _ hown')

omit [LinearOrder P] in
private theorem table_match {before after : OrderTable P} {ids : List Str}
    (hm : MatchedTable before after ids) (hids : ∀ id ∈ ids, isActiveAt before id = true)
    (hkeyed : Keyed before)
    (hpos : ∀ id o, before.lookup id = some o → o.isCancelled = false → 0 < o.remaining) :
    Keyed after ∧ ∀ id o, after.lookup id = some o → o.isCancelled = false → 0 < o.remaining := by
  refine ⟨fun id x hx => ?_, fun id x hx hc => ?_⟩
  · rcases hm.lookup_after hids hx with ⟨-, ho⟩ | ⟨-, o, ho, -, hred⟩
    · exact hkeyed id x ho
    · exact hred.fields.1.trans (hkeyed id o ho)
  · rcases hm.lookup_after hids hx with ⟨-, ho⟩ | ⟨-, o, -, -, hred⟩
    · exact hpos id x ho hc
    · have hne : x.remaining ≠ 0 := fun hz => by
        rw [hred.isCancelled_iff.mpr hz] at hc
        cases hc
      exact lt_of_le_of_ne hred.2.1 hne.symm

/-- A market order of any side and any quantity. -/
theorem Inv.matchMarketOrder (h : b.Inv) (side : Side) (q : ℤ) :
    (b.matchMarketOrder side q).1.Inv := by
  rw [OrderBook.matchMarketOrder]
  split_ifs with hs
  · obtain ⟨hkeyed, hpos⟩ := table_match (h.asks.matchedTable q [] h.pos)
      (h.asks.isActiveAt_queuedIds h.pos) h.keyed h.pos
    exact ⟨hkeyed, hpos, foreign_match (s := ⟨b.orders, q, []⟩) h.asks h.bids
      (fun _ h₁ h₂ => h₁ h₂) h.pos, h.asks.matchSide q [] h.pos⟩
  · obtain ⟨hkeyed, hpos⟩ := table_match (h.bids.matchedTable q [] h.pos)
      (h.bids.isActiveAt_queuedIds h.pos) h.keyed h.pos
    exact ⟨hkeyed, hpos, h.bids.matchSide q [] h.pos,
      foreign_match (s := ⟨b.orders, q, []⟩) h.bids h.asks (fun _ h₁ h₂ => h₂ h₁) h.pos⟩

theorem Inv.insertReplicatedOrder (h : b.Inv) {o : Order P} (hc : o.isCancelled = false)
    (hr : 0 < o.remaining) : (b.insertReplicatedOrder o).Inv := by
  rw [OrderBook.insertReplicatedOrder]
  split_ifs with hid
  · exact h
  · exact h.place hid hc hr

theorem Inv.cancelOrder (h : b.Inv) (id : Str) : (b.cancelOrder id).1.Inv := by
  obtain hcancel | ⟨o, ho, hc, hcancel⟩ := cancelOrder_cases b id
  · rwa [hcancel]
  · rw [hcancel]
    exact h.markCancelled ho hc

theorem Inv.applyReplicatedCancel (h : b.Inv) (id : Str) : (b.applyReplicatedCancel id).Inv :=
  applyReplicatedCancel_eq b id ▸ h.cancelOrder id

end OrderBook

/-! ### Runs of one book -/

/-- The calls of the five mutators. -/
inductive BookOp (P : Type*)
  | addOrder (order : Order P)
  | insertReplicatedOrder (order : Order P)
  | cancelOrder (orderId : Str)
  | applyReplicatedCancel (orderId : Str)
  | matchMarketOrder (side : Side) (quantity : ℤ)

/-- An order as `local_add_order` builds it: nothing filled yet, not cancelled, of a positive
quantity. -/
def Order.IsNew (o : Order P) : Prop :=
  o.remaining = o.quantity ∧ 0 < o.quantity ∧ o.isCancelled = false

/-- A new order enters by `add_order` under an id the book does not have, or by
`insert_replicated_order` under any id. -/
def BookOp.Admissible [LinearOrder P] (b : OrderBook P) : BookOp P → Prop
  | addOrder o => o.orderId ∉ b.orders ∧ o.IsNew
  | insertReplicatedOrder o => o.IsNew
  | _ => True

/-- The book after a call. -/
def BookOp.apply [LinearOrder P] (b : OrderBook P) : BookOp P → OrderBook P
  | addOrder o => (b.addOrder o).1
  | insertReplicatedOrder o => b.insertReplicatedOrder o
  | cancelOrder id => (b.cancelOrder id).1
  | applyReplicatedCancel id => b.applyReplicatedCancel id
  | matchMarketOrder side q => (b.matchMarketOrder side q).1

/-- The runs of one book from empty. -/
def bookSystem (P : Type*) [LinearOrder P] : TransitionSystem (OrderBook P) (BookOp P) where
  init := OrderBook.new
  enabled := BookOp.Admissible
  step := BookOp.apply

namespace OrderBook

variable [LinearOrder P] {b : OrderBook P}

theorem Inv.apply (h : b.Inv) (op : BookOp P) (hop : op.Admissible b) : (op.apply b).Inv := by
  cases op with
  | addOrder o =>
    obtain ⟨hid, hr, hq, hc⟩ := hop
    exact h.place hid hc (hr ▸ hq)
  | insertReplicatedOrder o =>
    obtain ⟨hr, hq, hc⟩ := hop
    exact h.insertReplicatedOrder hc (hr ▸ hq)
  | cancelOrder id => exact h.cancelOrder id
  | applyReplicatedCancel id => exact h.applyReplicatedCancel id
  | matchMarketOrder side q => exact h.matchMarketOrder side q

theorem inv_of_reachable (h : (bookSystem P).Reachable b) : b.Inv :=
  h.invariant .new fun _ op _ hb hop => hb.apply op hop

/-- The levels, totals and queues of a book agree with its orders: orders are stored under their
ids, every level has its price and a
non-empty queue, and its total is what remains of the orders in the queue; the queues of both sides
together hold every active order once, on its own side under its own price, and nothing else. -/
structure Consistent (b : OrderBook P) : Prop where
  stored : Keyed b.orders
  bid_level : ∀ p level, b.bids.find? p = some level →
    level.price = p ∧ level.orders ≠ [] ∧
      level.totalQuantity = totalRemaining b.orders level.orders
  ask_level : ∀ p level, b.asks.find? p = some level →
    level.price = p ∧ level.orders ≠ [] ∧
      level.totalQuantity = totalRemaining b.orders level.orders
  queued_once : ∀ id, (queuedIds b.bids.entries ++ queuedIds b.asks.entries).count id =
    if isActiveAt b.orders id then 1 else 0
  queued_bid : ∀ id o, b.orders.lookup id = some o → o.isActive = true → o.side = Side.buy →
    id ∈ queueAt b.bids o.price
  queued_ask : ∀ id o, b.orders.lookup id = some o → o.isActive = true → o.side ≠ Side.buy →
    id ∈ queueAt b.asks o.price

private theorem level_of_sideInv {r : P → P → Prop} {orders : OrderTable P}
    {levels : SortedMap r (PriceLevel P)} {own : Side → Prop} (h : SideInv orders levels own)
    {p : P} {level : PriceLevel P} (hl : levels.find? p = some level) :
    level.price = p ∧ level.orders ≠ [] ∧
      level.totalQuantity = totalRemaining orders level.orders := by
  rw [h.represents p, levelOf] at hl
  split_ifs at hl with hq
  rw [← Option.some.inj hl]
  exact ⟨rfl, hq, rfl⟩

theorem Inv.nodup_queuedIds (h : b.Inv) :
    (queuedIds b.bids.entries ++ queuedIds b.asks.entries).Nodup := by
  refine List.nodup_append'.mpr ⟨?_, ?_, fun id hbid hask => ?_⟩
  · exact h.bids.represents.nodup_queuedIds h.bids.nodup fun _ _ _ => h.bids.price_unique
  · exact h.asks.represents.nodup_queuedIds h.asks.nodup fun _ _ _ => h.asks.price_unique
  · obtain ⟨o, ho, -, hs⟩ := h.bids.mem_queuedIds.mp hbid
    obtain ⟨o', ho', -, hs'⟩ := h.asks.mem_queuedIds.mp hask
    obtain rfl : o = o' := Option.some.inj (ho.symm.trans ho')
    exact hs' hs

theorem Inv.mem_queuedIds_iff (h : b.Inv) (id : Str) :
    id ∈ queuedIds b.bids.entries ++ queuedIds b.asks.entries ↔ isActiveAt b.orders id = true := by
  rw [List.mem_append, h.bids.mem_queuedIds, h.asks.mem_queuedIds, isActiveAt_iff]
  constructor
  · rintro (⟨o, ho, hc, -⟩ | ⟨o, ho, hc, -⟩)
    · exact ⟨o, ho, hc, h.pos id o ho hc⟩
    · exact ⟨o, ho, hc, h.pos id o ho hc⟩
  · rintro ⟨o, ho, hc, -⟩
    by_cases hs : o.side = Side.buy
    · exact Or.inl ⟨o, ho, hc, hs⟩
    · exact Or.inr ⟨o, ho, hc, hs⟩

theorem Inv.consistent (h : b.Inv) : b.Consistent where
  stored := h.keyed
  bid_level _ _ := level_of_sideInv h.bids
  ask_level _ _ := level_of_sideInv h.asks
  queued_once id := by
    rw [h.nodup_queuedIds.count]
    simp only [h.mem_queuedIds_iff]
  queued_bid id o ho hact hs := by
    simp only [Order.isActive, Bool.and_eq_true, Bool.not_eq_true'] at hact
    exact h.bids.mem_of_lookup ho hact.1 hs
  queued_ask id o ho hact hs := by
    simp only [Order.isActive, Bool.and_eq_true, Bool.not_eq_true'] at hact
    exact h.asks.mem_of_lookup ho hact.1 hs

/-- **Representation invariant.** In every state of every run of one book, levels, totals and queues
agree with the orders. -/
theorem consistent_of_reachable (h : (bookSystem P).Reachable b) : b.Consistent :=
  (inv_of_reachable h).consistent

/-- A book with one ask, half filled. -/
theorem consistent_ask_half_filled :
    (((OrderBook.new : OrderBook ℤ).addOrder
      ⟨[97], [49], Side.sell, 100, 4, 4, 1, false⟩).1.matchMarketOrder
        Side.buy 2).1.Consistent := by
  have hadd := TransitionSystem.Reachable.init (T := bookSystem ℤ) |>.step
    (BookOp.addOrder ⟨[97], [49], Side.sell, 100, 4, 4, 1, false⟩)
    ⟨AList.notMem_empty _, rfl, by decide, rfl⟩
  exact consistent_of_reachable (hadd.step (BookOp.matchMarketOrder Side.buy 2) trivial)

end OrderBook

end Convergence
