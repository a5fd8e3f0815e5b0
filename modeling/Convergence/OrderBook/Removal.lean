import Convergence.OrderBook.LifeCycle
import Mathlib.Data.Option.Basic

/-!
# Taking one order out of a book

What a successful cancellation takes out of a book, whatever orders have come in: replicated orders
may carry a flag that is already set, or a quantity that is not positive. An order that is not
flagged is still queued on its side at its price, and nowhere else (`OrderBook.Lodged`), so that a
cancellation removes its one place in the queues, its share of the level's total, and the level with
its last order (`OrderBook.Loses`).

## Main definitions

* `Order.Stays`, `Stays`: an order, and a table, through the matching loops.
* `SideLodged`, `OrderBook.Lodged`.
* `PriceLevel.without`, `OrderBook.Loses`.

## Main results

* `OrderBook.Change.lodged`: every change of a book keeps its orders lodged.
* `OrderBook.Lodged.loses`: what a cancellation does.
-/

namespace Convergence

variable {P : Type*}

/-! ### Orders through the matching loops -/

/-- `o'` has the side and the price of `o`, and is `o` when `o` is flagged. -/
structure Order.Stays (o o' : Order P) : Prop where
  side : o'.side = o.side
  price : o'.price = o.price
  settled : o.isCancelled = true → o' = o

theorem Order.Stays.refl (o : Order P) : o.Stays o := ⟨rfl, rfl, fun _ => rfl⟩

theorem Order.Stays.trans {o₁ o₂ o₃ : Order P} (h₁ : o₁.Stays o₂) (h₂ : o₂.Stays o₃) :
    o₁.Stays o₃ where
  side := h₂.side.trans h₁.side
  price := h₂.price.trans h₁.price
  settled hc := by
    obtain rfl := h₁.settled hc
    exact h₂.settled hc

/-- The tables have the same entries, apart from what becomes of the orders. -/
def Stays (before after : OrderTable P) : Prop :=
  ∀ id, Option.Rel Order.Stays (before.lookup id) (after.lookup id)

namespace Stays

variable {before after : OrderTable P} {id : Str} {o : Order P}

theorem refl (orders : OrderTable P) : Stays orders orders := fun id => by
  cases orders.lookup id with
  | none => exact .none
  | some o => exact .some (.refl o)

theorem trans {t₁ t₂ t₃ : OrderTable P} (h₁ : Stays t₁ t₂) (h₂ : Stays t₂ t₃) : Stays t₁ t₃ := by
  intro id
  have h₁ := h₁ id
  have h₂ := h₂ id
  generalize t₁.lookup id = x, t₂.lookup id = y, t₃.lookup id = z at h₁ h₂
  cases h₁ with
  | none => exact h₂
  | some ho =>
    cases h₂ with
    | some ho' => exact .some (ho.trans ho')

theorem insert {orders : OrderTable P} {o' : Order P} (ho : orders.lookup id = some o)
    (h : o.Stays o') : Stays orders (orders.insert id o') := fun a => by
  rw [lookup_insert_eq]
  split_ifs with ha
  · rw [ha, ho]
    exact .some h
  · exact refl orders a

theorem later (h : Stays before after) (ho : before.lookup id = some o) :
    ∃ o', after.lookup id = some o' ∧ o.Stays o' := by
  have hid := h id
  rw [ho] at hid
  cases hid' : after.lookup id with
  | none =>
    rw [hid'] at hid
    cases hid
  | some o' =>
    rw [hid'] at hid
    cases hid with
    | some hs => exact ⟨o', rfl, hs⟩

theorem earlier (h : Stays before after) (ho : after.lookup id = some o) :
    ∃ o', before.lookup id = some o' ∧ o'.Stays o := by
  have hid := h id
  rw [ho] at hid
  cases hid' : before.lookup id with
  | none =>
    rw [hid'] at hid
    cases hid
  | some o' =>
    rw [hid'] at hid
    cases hid with
    | some hs => exact ⟨o', rfl, hs⟩

end Stays

theorem Order.stays_usedUp {o : Order P} (hc : o.isCancelled = false) : o.Stays o.usedUp :=
  ⟨rfl, rfl, fun h => absurd h (by simp [hc])⟩

theorem Order.stays_lessBy {o : Order P} (hc : o.isCancelled = false) (n : ℤ) :
    o.Stays (o.lessBy n) :=
  ⟨rfl, rfl, fun h => absurd h (by simp [hc])⟩

theorem QueueWalk.stays {queue queue' : List Str} {s s' : MatchState P}
    (h : QueueWalk queue s queue' s') : Stays s.orders s'.orders := by
  induction h with
  | stop => exact .refl _
  | skip _ _ _ ih => exact ih
  | usedUp _ ho hc _ _ ih => exact (Stays.insert ho (Order.stays_usedUp hc)).trans ih
  | lessBy _ ho hc _ => exact .insert ho (Order.stays_lessBy hc _)

/-- An order that the inner loop takes off the queue is flagged. -/
theorem QueueWalk.flagged {queue queue' : List Str} {s s' : MatchState P}
    (h : QueueWalk queue s queue' s') {id : Str} (hid : id ∈ queue) (hout : id ∉ queue')
    {o : Order P} (ho : s'.orders.lookup id = some o) : o.isCancelled = true := by
  -- The flag stays set to the end of the walk.
  have hkeep {s s' : MatchState P} (hs : Stays s.orders s'.orders) {x : Order P}
      (ho : s'.orders.lookup id = some o) (hx : s.orders.lookup id = some x)
      (hc : x.isCancelled = true) : o.isCancelled = true := by
    obtain ⟨y, hy, hst⟩ := hs.later hx
    obtain rfl := Option.some.inj (hy.symm.trans ho)
    rw [hst.settled hc, hc]
  induction h with
  | stop => exact absurd hid hout
  | @skip a queue s queue' s' _ hskip h ih =>
    rcases List.mem_cons.mp hid with rfl | hid
    · obtain ⟨x, hx, -⟩ := h.stays.earlier ho
      exact hkeep h.stays ho hx (hskip x hx)
    · exact ih hid hout ho
  | usedUp _ _ _ _ h ih =>
    rcases List.mem_cons.mp hid with rfl | hid
    · exact hkeep h.stays ho (AList.lookup_insert _) rfl
    · exact ih hid hout ho
  | lessBy => exact absurd hid hout

theorem matchLevels_stays (levels : List ((_ : P) × PriceLevel P)) (s : MatchState P) :
    Stays s.orders (matchLevels levels s).2.orders := by
  induction levels generalizing s with
  | nil => exact .refl _
  | cons e levels ih =>
    rw [snd_matchLevels_cons]
    split_ifs
    · exact (matchQueue_walk e.2.orders e.2.totalQuantity s).stays.trans (ih _)
    · exact .refl _

/-- An order that the matching loops take out of the queues is flagged. -/
theorem matchLevels_flagged (levels : List ((_ : P) × PriceLevel P)) (s : MatchState P) {id : Str}
    (hid : id ∈ queuedIds levels) (hout : id ∉ queuedIds (matchLevels levels s).1) {o : Order P}
    (ho : (matchLevels levels s).2.orders.lookup id = some o) : o.isCancelled = true := by
  induction levels generalizing s with
  | nil => exact absurd hid List.not_mem_nil
  | cons e levels ih =>
    have hwalk := matchQueue_walk e.2.orders e.2.totalQuantity s
    rw [snd_matchLevels_cons] at ho
    have hsplit {l : List ((_ : P) × PriceLevel P)} :
        id ∈ queuedIds (e :: l) ↔ id ∈ e.2.orders ∨ id ∈ queuedIds l := List.mem_append
    rw [matchLevels] at hout
    split_ifs at hout ho with hrem
    · set s₁ := (matchQueue e.2.orders e.2.totalQuantity s).2.2
      have hboth : id ∉ (matchQueue e.2.orders e.2.totalQuantity s).1 ∧
          id ∉ queuedIds (matchLevels levels s₁).1 := by
        dsimp only at hout
        split_ifs at hout with hnil
        · exact ⟨hnil ▸ List.not_mem_nil, hout⟩
        · exact not_or.mp fun h => hout (List.mem_append.mpr h)
      rcases hsplit.mp hid with hid | hid
      · obtain ⟨x, hx, hst⟩ := (matchLevels_stays levels s₁).earlier ho
        have hc := hwalk.flagged hid hboth.1 hx
        rw [hst.settled hc, hc]
      · exact ih s₁ hid hboth.2 ho
    · exact absurd hid hout

/-! ### Lodged orders -/

/-- The ids queued under a price belong to orders of the side `own` at this price, and an order of
this side that is not flagged is queued. -/
structure SideLodged [DecidableEq P] {r : P → P → Prop} (orders : OrderTable P)
    (levels : SortedMap r (PriceLevel P)) (own : Side → Prop) : Prop
    extends SideHoused orders levels own where
  queued : ∀ id o, orders.lookup id = some o → o.isCancelled = false → own o.side →
    id ∈ queueAt levels o.price

namespace SideLodged

section Basic

variable [DecidableEq P] {r : P → P → Prop} {orders orders' : OrderTable P}
  {levels levels' : SortedMap r (PriceLevel P)} {own : Side → Prop}

theorem empty :
    SideLodged (∅ : OrderTable P) (SortedMap.empty : SortedMap r (PriceLevel P)) own where
  toSideHoused := .empty
  queued id o ho := by simp at ho

/-- Orders stay and queues lose ids of orders that are flagged. -/
theorem shrink (h : SideLodged orders levels own) (hst : Stays orders orders')
    (hsub : ∀ p, (queueAt levels' p).Sublist (queueAt levels p))
    (hout : ∀ p, ∀ id ∈ queueAt levels p, id ∉ queueAt levels' p → ∀ o,
      orders'.lookup id = some o → o.isCancelled = true) : SideLodged orders' levels' own where
  located p id hid := by
    obtain ⟨o, ho, hs, hp⟩ := h.located p id ((hsub p).subset hid)
    obtain ⟨o', ho', hso⟩ := hst.later ho
    exact ⟨o', ho', hso.side ▸ hs, hso.price.trans hp⟩
  nodup p := (h.nodup p).sublist (hsub p)
  queued id o ho hc hs := by
    obtain ⟨x, hx, hso⟩ := hst.earlier ho
    have hxc : x.isCancelled = false := Bool.eq_false_iff.mpr fun hxc => by
      rw [hso.settled hxc, hxc] at hc
      cases hc
    have hin : id ∈ queueAt levels o.price := hso.price ▸ h.queued id x hx hxc (hso.side ▸ hs)
    by_contra hgone
    rw [hout _ id hin hgone o ho] at hc
    cases hc

/-- An order of the other side, under an id that is in no queue here. -/
theorem insert_foreign (h : SideLodged orders levels own) {o : Order P}
    (hid : ∀ p, o.orderId ∉ queueAt levels p) (hs : ¬ own o.side) :
    SideLodged (orders.insert o.orderId o) levels own where
  toSideHoused := h.toSideHoused.insert hid
  queued id x hx hc hxs := by
    rw [lookup_insert_eq] at hx
    split_ifs at hx with hne
    · obtain rfl := Option.some.inj hx
      exact absurd hxs hs
    · exact h.queued id x hx hc hxs

theorem push [DecidableRel r] [IsStrictTotalOrder P r] (h : SideLodged orders levels own)
    {o : Order P} (hid : ∀ p, o.orderId ∉ queueAt levels p) (hs : own o.side) :
    SideLodged (orders.insert o.orderId o) (levels.upsert o.price (PriceLevel.push o)) own where
  toSideHoused := h.toSideHoused.push hid hs
  queued id x hx hc hxs := by
    rw [queueAt_upsert_push]
    rw [lookup_insert_eq] at hx
    split_ifs at hx with hne
    · obtain rfl := Option.some.inj hx
      rw [if_pos rfl, hne]
      exact List.mem_append_right _ List.mem_cons_self
    · have hin := h.queued id x hx hc hxs
      split_ifs
      exacts [List.mem_append_left _ hin, hin]

end Basic

/-- The matched side: what leaves a queue is flagged. -/
theorem matchSide [DecidableEq P] {r : P → P → Prop} [Std.Irrefl r] {s : MatchState P}
    {levels : SortedMap r (PriceLevel P)} {own : Side → Prop}
    (h : SideLodged s.orders levels own) :
    SideLodged (matchSide levels s).2.orders (matchSide levels s).1 own := by
  refine h.shrink (matchLevels_stays _ s) (queueAt_matchSide_sublist levels s)
    fun p id hin hgone o ho => ?_
  refine matchLevels_flagged levels.entries s (mem_queuedIds_iff.mpr ⟨p, hin⟩) ?_ ho
  intro (hmem : id ∈ queuedIds (Convergence.matchSide levels s).1.entries)
  obtain ⟨p', hp'⟩ := mem_queuedIds_iff.mp hmem
  -- The id is still queued, so at the price at which it was.
  obtain rfl := h.price_unique hin ((queueAt_matchSide_sublist levels s p').subset hp')
  exact hgone hp'

end SideLodged

namespace OrderBook

variable [LinearOrder P] {b b' : OrderBook P} {fills : List (Fill P)} {E : Order P → Prop}

/-- Orders are stored under their ids and queued on their sides at their prices, those that are not
flagged once and the others at most once. -/
structure Lodged (b : OrderBook P) : Prop where
  keyed : Keyed b.orders
  bids : SideLodged b.orders b.bids IsBid
  asks : SideLodged b.orders b.asks IsAsk

theorem Lodged.new : (OrderBook.new : OrderBook P).Lodged where
  keyed id o ho := by simp [OrderBook.new] at ho
  bids := .empty
  asks := .empty

/-- What is queued is stored. -/
theorem Lodged.mem_of_queued (hb : b.Lodged) {id : Str} (hq : b.Queued id) : id ∈ b.orders := by
  obtain ⟨p, hq | hq⟩ := hq
  · obtain ⟨o, ho, -⟩ := hb.bids.located p id hq
    exact mem_of_lookup ho
  · obtain ⟨o, ho, -⟩ := hb.asks.located p id hq
    exact mem_of_lookup ho

theorem Lodged.not_queued (hb : b.Lodged) {id : Str} (hid : id ∉ b.orders) : ¬ b.Queued id :=
  fun hq => hid (hb.mem_of_queued hq)

/-- An order is placed under an id that is not queued. An entry that it overwrites is flagged then,
so it leaves nothing behind. -/
theorem Lodged.place (hb : b.Lodged) {o : Order P} (hid : ¬ b.Queued o.orderId) :
    (b.place o).Lodged := by
  have hkeyed : Keyed (b.orders.insert o.orderId o) := keyed_insert hb.keyed rfl
  have hbids (p : P) := (notMem_of_not_queued hid p).1
  have hasks (p : P) := (notMem_of_not_queued hid p).2
  rw [OrderBook.place]
  split_ifs with hs
  · exact ⟨hkeyed, hb.bids.push hbids hs, hb.asks.insert_foreign hasks (not_not.mpr hs)⟩
  · exact ⟨hkeyed, hb.bids.insert_foreign hbids hs, hb.asks.push hasks hs⟩

/-- Nothing else is flagged, and the order leaves its queue at most. -/
theorem Lodged.markCancelled (hb : b.Lodged) {id : Str} {o : Order P}
    (ho : b.orders.lookup id = some o) (hc : o.isCancelled = false) :
    (b.markCancelled id o).Lodged := by
  have hst : Stays b.orders (b.markCancelled id o).orders := by
    rw [orders_markCancelled]
    exact .insert ho ⟨rfl, rfl, fun h => absurd h (by simp [hc])⟩
  have hflag {a : Str} {x : Order P} (hx : (b.markCancelled id o).orders.lookup a = some x)
      (ha : a = id) : x.isCancelled = true := by
    rw [orders_markCancelled, ha, AList.lookup_insert] at hx
    exact (Option.some.inj hx) ▸ rfl
  refine ⟨?_, hb.bids.shrink hst (fun p => ?_) fun p a hin hgone x hx => hflag hx ?_,
    hb.asks.shrink hst (fun p => ?_) fun p a hin hgone x hx => hflag hx ?_⟩
  · rw [orders_markCancelled]
    exact keyed_insert hb.keyed (hb.keyed id o ho)
  · rw [queueAt_bids_markCancelled]
    split_ifs
    exacts [List.erase_sublist, .refl _]
  · rw [queueAt_bids_markCancelled] at hgone
    split_ifs at hgone
    · exact not_not.mp fun hne => hgone ((List.mem_erase_of_ne hne).mpr hin)
    · exact absurd hin hgone
  · rw [queueAt_asks_markCancelled]
    split_ifs
    exacts [List.erase_sublist, .refl _]
  · rw [queueAt_asks_markCancelled] at hgone
    split_ifs at hgone
    · exact not_not.mp fun hne => hgone ((List.mem_erase_of_ne hne).mpr hin)
    · exact absurd hin hgone

theorem Lodged.matchMarketOrder (hb : b.Lodged) (side : Side) (q : ℤ) :
    (b.matchMarketOrder side q).1.Lodged := by
  have hkeyed := (b.matchMarketOrder_follows side q).keyed hb.keyed
  rw [OrderBook.matchMarketOrder] at hkeyed ⊢
  split_ifs at hkeyed ⊢
  · have hst := matchLevels_stays b.asks.entries ⟨b.orders, q, []⟩
    exact ⟨hkeyed, hb.bids.shrink hst (fun _ => .refl _) fun _ _ hin hgone => absurd hin hgone,
      SideLodged.matchSide (s := ⟨b.orders, q, []⟩) hb.asks⟩
  · have hst := matchLevels_stays b.bids.entries ⟨b.orders, q, []⟩
    exact ⟨hkeyed, SideLodged.matchSide (s := ⟨b.orders, q, []⟩) hb.bids,
      hb.asks.shrink hst (fun _ => .refl _) fun _ _ hin hgone => absurd hin hgone⟩

/-- Every change of a book, whatever orders come in, keeps its orders lodged. -/
theorem Change.lodged (h : b.Change E b' fills) (hb : b.Lodged) : b'.Lodged := by
  cases h with
  | same => exact hb
  | entered o hid => exact hb.place (hb.not_queued hid)
  | cancelled id o ho hc => exact hb.markCancelled ho hc
  | matched side q => exact hb.matchMarketOrder side q

end OrderBook

/-! ### Losing one order -/

/-- A level without the order `id`, of which `n` remained: none when that was its last order. -/
def PriceLevel.without (id : Str) (n : ℤ) (level : PriceLevel P) : Option (PriceLevel P) :=
  if level.orders.erase id = [] then none
  else some { level with
    totalQuantity := level.totalQuantity - n
    orders := level.orders.erase id }

theorem find?_removeFromLevel [DecidableEq P] {r : P → P → Prop} [DecidableRel r]
    [IsStrictTotalOrder P r] {levels : SortedMap r (PriceLevel P)} (orders : OrderTable P)
    {id : Str} {price : P} (hid : id ∈ queueAt levels price) (p : P) :
    (removeFromLevel levels orders id price).find? p =
      if p = price then (levels.find? p).bind (PriceLevel.without id (remainingOf orders id))
      else levels.find? p := by
  rw [queueAt] at hid
  rw [removeFromLevel]
  cases hfind : levels.find? price with
  | none => simp [hfind] at hid
  | some level =>
    rw [hfind, Option.map_some, Option.getD_some] at hid
    simp only [hid, if_true]
    by_cases hp : p = price
    · subst hp
      rw [if_pos rfl, hfind, Option.bind_some, PriceLevel.without]
      split_ifs
      · rw [SortedMap.find?_erase, if_pos rfl]
      · rw [SortedMap.find?_upsert, if_pos rfl]
    · rw [if_neg hp]
      split_ifs
      · rw [SortedMap.find?_erase, if_neg hp]
      · rw [SortedMap.find?_upsert, if_neg hp]

namespace OrderBook

variable [LinearOrder P] {b : OrderBook P} {id : Str} {o : Order P}

/-- `b'` is the book `b` without the order `o`, whose id is `id`. The order was live and queued
once; now it is flagged and in no queue. Other entries and other levels are the same, and the level
of the order lacks its id and what remained of it. -/
structure Loses (b b' : OrderBook P) (id : Str) (o : Order P) : Prop where
  stored : b.orders.lookup id = some o
  live : o.isCancelled = false
  queued_once : (queuedIds b.bids.entries ++ queuedIds b.asks.entries).count id = 1
  not_queued : ¬ b'.Queued id
  table : ∀ a, b'.orders.lookup a =
    if a = id then some { o with isCancelled := true } else b.orders.lookup a
  bids : ∀ p, b'.bids.find? p =
    if o.side = Side.buy ∧ p = o.price then
      (b.bids.find? p).bind (PriceLevel.without id o.remaining)
    else b.bids.find? p
  asks : ∀ p, b'.asks.find? p =
    if o.side ≠ Side.buy ∧ p = o.price then
      (b.asks.find? p).bind (PriceLevel.without id o.remaining)
    else b.asks.find? p

theorem Lodged.count_queuedIds (hb : b.Lodged) (ho : b.orders.lookup id = some o)
    (hc : o.isCancelled = false) :
    (queuedIds b.bids.entries ++ queuedIds b.asks.entries).count id = 1 := by
  refine List.count_eq_one_of_mem (List.nodup_append'.mpr ⟨hb.bids.nodup_queuedIds,
    hb.asks.nodup_queuedIds, fun a hbid hask => ?_⟩) (List.mem_append.mpr ?_)
  · obtain ⟨p, hbid⟩ := mem_queuedIds_iff.mp hbid
    obtain ⟨p', hask⟩ := mem_queuedIds_iff.mp hask
    obtain ⟨x, hx, hs, -⟩ := hb.bids.located p a hbid
    obtain ⟨x', hx', hs', -⟩ := hb.asks.located p' a hask
    obtain rfl := Option.some.inj (hx.symm.trans hx')
    exact hs' hs
  · by_cases hs : o.side = Side.buy
    · exact Or.inl (mem_queuedIds_iff.mpr ⟨_, hb.bids.queued id o ho hc hs⟩)
    · exact Or.inr (mem_queuedIds_iff.mpr ⟨_, hb.asks.queued id o ho hc hs⟩)

/-- **A cancellation takes out exactly its order.** -/
theorem Lodged.loses (hb : b.Lodged) (ho : b.orders.lookup id = some o)
    (hc : o.isCancelled = false) : b.Loses (b.markCancelled id o) id o := by
  have hrem : remainingOf (b.orders.insert id { o with isCancelled := true }) id = o.remaining := by
    rw [remainingOf_of_lookup (AList.lookup_insert _)]
  refine
    { stored := ho
      live := hc
      queued_once := hb.count_queuedIds ho hc
      not_queued := not_queued_markCancelled hb.bids.toSideHoused hb.asks.toSideHoused ho
      table := fun a => by rw [orders_markCancelled, lookup_insert_eq]
      bids := fun p => ?_
      asks := fun p => ?_ }
  · by_cases hs : o.side = Side.buy
    · rw [OrderBook.markCancelled, removeOrderFromLevel, if_pos hs,
        find?_removeFromLevel _ (hb.bids.queued id o ho hc hs), hrem]
      simp only [hs, true_and]
    · rw [OrderBook.markCancelled, removeOrderFromLevel, if_neg hs, if_neg fun h => hs h.1]
  · by_cases hs : o.side = Side.buy
    · rw [OrderBook.markCancelled, removeOrderFromLevel, if_pos hs, if_neg fun h => h.1 hs]
    · rw [OrderBook.markCancelled, removeOrderFromLevel, if_neg hs,
        find?_removeFromLevel _ (hb.asks.queued id o ho hc hs), hrem]
      simp only [ne_eq, hs, not_false_eq_true, true_and]

end OrderBook

end Convergence
