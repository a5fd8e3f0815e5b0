import Convergence.OrderBook.Matching

/-!
# Price maps as queues

What a price map is for: under every price it keeps the queue of the orders resting there. Such a
family of queues `q : P → List Str` is the abstract value of one side of the book. The price map
`Represents` it when it has a level exactly at the prices with a non-empty queue, the level carrying
the price, the queue and the sum of the remaining quantities. A represented map is determined by its
queues (`Represents.unique`), so an operation on the map is described by what it does to the queues:
appending an order at its price, erasing one, or dropping the orders a market order has used up.

## Main definitions

* `queueAt`, `levelOf`, `Represents`.

## Main results

* `queueAt_upsert_push`, `queueAt_removeFromLevel`: what happens to the queues of any price map.
* `Represents.push`, `Represents.removeFromLevel`, `Represents.matchSide`.
-/

namespace Convergence

variable {P : Type*} {r : P → P → Prop}

/-- The queue kept under a price, empty when there is no level. -/
def queueAt [DecidableEq P] (levels : SortedMap r (PriceLevel P)) (p : P) : List Str :=
  ((levels.find? p).map PriceLevel.orders).getD []

/-- The level that a queue at price `p` has to show. -/
def levelOf (orders : OrderTable P) (p : P) (queue : List Str) : Option (PriceLevel P) :=
  if queue = [] then none else some ⟨p, totalRemaining orders queue, queue⟩

/-- `levels` shows exactly the queues `q`. -/
def Represents [DecidableEq P] (orders : OrderTable P) (levels : SortedMap r (PriceLevel P))
    (q : P → List Str) : Prop :=
  ∀ p, levels.find? p = levelOf orders p (q p)

/-! ### Queues under the operations on a price map -/

section Queue

variable [DecidableEq P] {levels : SortedMap r (PriceLevel P)}

theorem queueAt_of_mem [Std.Irrefl r] {e : (_ : P) × PriceLevel P} (he : e ∈ levels.entries) :
    queueAt levels e.1 = e.2.orders := by
  rw [queueAt, SortedMap.find?_eq_some_iff.mpr he]
  rfl

/-- The queues of a price map hold the ids in its levels. -/
theorem mem_queuedIds_iff [Std.Irrefl r] {id : Str} :
    id ∈ queuedIds levels.entries ↔ ∃ p, id ∈ queueAt levels p := by
  rw [queuedIds, List.mem_flatMap]
  constructor
  · rintro ⟨e, he, hid⟩
    exact ⟨e.1, queueAt_of_mem he ▸ hid⟩
  · rintro ⟨p, hid⟩
    rw [queueAt] at hid
    cases hp : levels.find? p with
    | none => simp [hp] at hid
    | some level =>
      rw [hp] at hid
      exact ⟨⟨p, level⟩, SortedMap.find?_eq_some_iff.mp hp, hid⟩

/-- No id occurs twice when the queues are free of repetitions and share no id. -/
theorem nodup_queuedIds_of_queueAt [Std.Irrefl r] (hnd : ∀ p, (queueAt levels p).Nodup)
    (hdisj : ∀ p p' id, id ∈ queueAt levels p → id ∈ queueAt levels p' → p = p') :
    (queuedIds levels.entries).Nodup := by
  refine List.nodup_flatMap.mpr ⟨fun e he => queueAt_of_mem he ▸ hnd e.1, ?_⟩
  refine (List.nodupKeys_iff_pairwise.mp levels.nodupKeys).imp_of_mem fun {e e'} he he' hne => ?_
  intro id (hid : id ∈ e.2.orders) (hid' : id ∈ e'.2.orders)
  rw [← queueAt_of_mem he] at hid
  rw [← queueAt_of_mem he'] at hid'
  exact hne (hdisj _ _ id hid hid')

variable [DecidableRel r] [IsStrictTotalOrder P r]

/-- A new order goes to the end of the queue at its price. -/
theorem queueAt_upsert_push (o : Order P) (p : P) :
    queueAt (levels.upsert o.price (PriceLevel.push o)) p =
      if p = o.price then queueAt levels p ++ [o.orderId] else queueAt levels p := by
  rw [queueAt, SortedMap.find?_upsert]
  split_ifs with hp
  · subst hp
    rfl
  · rfl

/-- A cancelled order leaves the queue at its price. -/
theorem queueAt_removeFromLevel (orders : OrderTable P) (id : Str) (price p : P) :
    queueAt (removeFromLevel levels orders id price) p =
      if p = price then (queueAt levels p).erase id else queueAt levels p := by
  rw [removeFromLevel]
  cases hfind : levels.find? price with
  | none =>
    split_ifs with hp
    · subst hp
      simp [queueAt, hfind]
    · rfl
  | some level =>
    have hqueue : queueAt levels price = level.orders := by
      rw [queueAt, hfind]
      rfl
    have herase : (if id ∈ level.orders then
        { level with
          totalQuantity := level.totalQuantity - remainingOf orders id
          orders := level.orders.erase id }
        else level).orders = level.orders.erase id := by
      split_ifs with hid
      · rfl
      · exact (List.erase_of_not_mem hid).symm
    dsimp only
    generalize (if id ∈ level.orders then
        { level with
          totalQuantity := level.totalQuantity - remainingOf orders id
          orders := level.orders.erase id }
        else level) = level' at herase
    by_cases hp : p = price
    · subst hp
      rw [if_pos rfl, hqueue, queueAt, ← herase]
      split_ifs with hnil
      · rw [SortedMap.find?_erase, if_pos rfl, hnil]
        rfl
      · rw [SortedMap.find?_upsert, if_pos rfl, Option.map_some, Option.getD_some]
    · rw [if_neg hp, queueAt, queueAt]
      split_ifs with hnil
      · rw [SortedMap.find?_erase, if_neg hp]
      · rw [SortedMap.find?_upsert, if_neg hp]

end Queue

theorem levelOf_congr {orders orders' : OrderTable P} {p : P} {queue : List Str}
    (h : ∀ id ∈ queue, orders'.lookup id = orders.lookup id) :
    levelOf orders' p queue = levelOf orders p queue := by
  rw [levelOf, levelOf, totalRemaining_congr h]

theorem push_levelOf (orders : OrderTable P) (o : Order P) (queue : List Str)
    (h : ∀ id ∈ queue, id ≠ o.orderId) :
    some (PriceLevel.push o (levelOf orders o.price queue)) =
      levelOf (orders.insert o.orderId o) o.price (queue ++ [o.orderId]) := by
  have htotal : totalRemaining (orders.insert o.orderId o) (queue ++ [o.orderId]) =
      totalRemaining orders queue + o.remaining := by
    rw [totalRemaining, List.map_append, List.sum_append, List.map_singleton, List.sum_singleton,
      remainingOf_of_lookup (AList.lookup_insert _)]
    exact congrArg (· + o.remaining)
      (totalRemaining_congr fun id hid => AList.lookup_insert_ne (h id hid))
  have hright : levelOf (orders.insert o.orderId o) o.price (queue ++ [o.orderId]) =
      some ⟨o.price, totalRemaining orders queue + o.remaining, queue ++ [o.orderId]⟩ := by
    rw [levelOf, if_neg (List.append_ne_nil_of_right_ne_nil _ (List.cons_ne_nil _ _)), htotal]
  rw [hright, levelOf]
  by_cases hq : queue = []
  · subst hq
    simp [PriceLevel.push]
  · simp [PriceLevel.push, hq]

namespace Represents

section Basic

variable [DecidableEq P] {orders orders' : OrderTable P}
  {levels levels' : SortedMap r (PriceLevel P)}
  {q : P → List Str}

theorem queueAt_eq (h : Represents orders levels q) (p : P) : queueAt levels p = q p := by
  rw [queueAt, h p, levelOf]
  split_ifs with hq
  · exact hq.symm
  · rfl

theorem unique [IsStrictTotalOrder P r] (h : Represents orders levels q)
    (h' : Represents orders levels' q) : levels = levels' :=
  SortedMap.ext_find? fun p => (h p).trans (h' p).symm

theorem congr_orders (h : Represents orders levels q)
    (hf : ∀ p, ∀ id ∈ q p, orders'.lookup id = orders.lookup id) :
    Represents orders' levels q := fun p => by
  rw [h p, levelOf_congr (hf p)]

theorem congr_queues {q' : P → List Str} (h : Represents orders levels q) (hq : ∀ p, q p = q' p) :
    Represents orders levels q' := fun p => by
  rw [h p, hq p]

/-- The levels show their own queues. -/
theorem self (h : Represents orders levels q) : Represents orders levels (queueAt levels) :=
  h.congr_queues fun p => (h.queueAt_eq p).symm

theorem congr_remaining (h : Represents orders levels q)
    (hr : remainingOf orders' = remainingOf orders) : Represents orders' levels q := fun p => by
  rw [h p, levelOf, levelOf, totalRemaining, totalRemaining, hr]

theorem empty : Represents orders (SortedMap.empty : SortedMap r (PriceLevel P)) fun _ => [] :=
  fun _ => rfl

/-- A represented level, read off the entries of the map. -/
theorem of_mem [Std.Irrefl r] (h : Represents orders levels q) {e : (_ : P) × PriceLevel P}
    (he : e ∈ levels.entries) :
    e.2 = ⟨e.1, totalRemaining orders (q e.1), q e.1⟩ ∧ q e.1 ≠ [] := by
  have hfind : levels.find? e.1 = some e.2 := SortedMap.find?_eq_some_iff.mpr he
  rw [h e.1, levelOf] at hfind
  split_ifs at hfind with hq
  exact ⟨(Option.some.inj hfind).symm, hq⟩

end Basic

section Update

variable [DecidableEq P] [DecidableRel r] [IsStrictTotalOrder P r] {orders : OrderTable P}
  {levels : SortedMap r (PriceLevel P)} {q : P → List Str}

/-- Queueing an order whose id is in no queue. -/
theorem push (h : Represents orders levels q) (o : Order P) (hid : ∀ p, o.orderId ∉ q p) :
    Represents (orders.insert o.orderId o) (levels.upsert o.price (PriceLevel.push o))
      (Function.update q o.price (q o.price ++ [o.orderId])) := by
  have hne (p : P) : ∀ id ∈ q p, id ≠ o.orderId := fun id hmem heq => hid p (heq ▸ hmem)
  intro p
  rw [SortedMap.find?_upsert]
  split_ifs with hp
  · subst hp
    rw [Function.update_self, h, push_levelOf orders o _ (hne _)]
  · rw [Function.update_of_ne hp, h p, levelOf_congr fun id hmem =>
      AList.lookup_insert_ne (hne p id hmem)]

/-- Taking an order out of the queue at its price. -/
theorem removeFromLevel (h : Represents orders levels q) {id : Str} {p : P} (hid : id ∈ q p) :
    Represents orders (removeFromLevel levels orders id p)
      (Function.update q p ((q p).erase id)) := by
  have hq : q p ≠ [] := List.ne_nil_of_mem hid
  have htotal : totalRemaining orders (q p) - remainingOf orders id =
      totalRemaining orders ((q p).erase id) := by
    have hperm := ((List.perm_cons_erase hid).map (remainingOf orders)).sum_eq
    rw [List.map_cons, List.sum_cons] at hperm
    rw [totalRemaining, totalRemaining, hperm, add_sub_cancel_left]
  have hfind : levels.find? p = some ⟨p, totalRemaining orders (q p), q p⟩ := by
    rw [h p, levelOf, if_neg hq]
  intro a
  simp only [Convergence.removeFromLevel, hfind, if_pos hid, htotal]
  by_cases ha : a = p
  · subst ha
    rw [Function.update_self, levelOf]
    split_ifs with he
    · rw [SortedMap.find?_erase, if_pos rfl]
    · rw [SortedMap.find?_upsert, if_pos rfl]
  · rw [Function.update_of_ne ha, ← h a]
    split_ifs with he
    · rw [SortedMap.find?_erase, if_neg ha]
    · rw [SortedMap.find?_upsert, if_neg ha]

end Update

section Match

variable [DecidableEq P] [Std.Irrefl r] {orders : OrderTable P}
  {levels : SortedMap r (PriceLevel P)} {q : P → List Str}

theorem mem_queuedIds (h : Represents orders levels q) {id : Str} :
    id ∈ queuedIds levels.entries ↔ ∃ p, id ∈ q p := by
  rw [mem_queuedIds_iff]
  simp only [h.queueAt_eq]

theorem nodup_queuedIds (h : Represents orders levels q) (hnd : ∀ p, (q p).Nodup)
    (hdisj : ∀ p p' id, id ∈ q p → id ∈ q p' → p = p') : (queuedIds levels.entries).Nodup := by
  simp only [← h.queueAt_eq] at hnd hdisj
  exact nodup_queuedIds_of_queueAt hnd hdisj

/-- Matching against a represented side drops the orders it has used up from the queues. -/
theorem matchSide {s : MatchState P} (h : Represents s.orders levels q) (hnd : ∀ p, (q p).Nodup)
    (hdisj : ∀ p p' id, id ∈ q p → id ∈ q p' → p = p')
    (hact : ∀ p, ∀ id ∈ q p, isActiveAt s.orders id = true) :
    Represents (matchSide levels s).2.orders (matchSide levels s).1
        (fun p => (q p).filter (isActiveAt (matchSide levels s).2.orders)) ∧
      MatchedTable s.orders (matchSide levels s).2.orders (queuedIds levels.entries) := by
  have hact' : ∀ id ∈ queuedIds levels.entries, isActiveAt s.orders id = true := fun id hid => by
    obtain ⟨p, hp⟩ := h.mem_queuedIds.mp hid
    exact hact p id hp
  obtain ⟨hl, hm⟩ := matchLevels_spec levels.entries s (h.nodup_queuedIds hnd hdisj)
    (fun e he => by rw [(h.of_mem he).1]; exact (h.of_mem he).2) hact'
  refine ⟨fun p => ?_, hm⟩
  have hfind : (Convergence.matchSide levels s).1.find? p = (levels.find? p).bind
      (trimLevel s.orders (matchLevels levels.entries s).2.orders) := by
    change (matchLevels levels.entries s).1.dlookup p = _
    rw [hl, SortedMap.dlookup_filterMap (fun e => trimLevel _ _ e.2) levels.nodupKeys]
    rfl
  rw [hfind, h p, levelOf, levelOf]
  by_cases hq : q p = []
  · simp [hq]
  · rw [if_neg hq, Option.bind_some, trimLevel]
    simp [Convergence.matchSide]

end Match

end Represents

/-! ### The queues of a book -/

namespace OrderBook

variable [LinearOrder P] (b : OrderBook P) (id : Str) (o : Order P) (p : P)

theorem queueAt_bids_place : queueAt (b.place o).bids p =
    if o.side = Side.buy ∧ p = o.price then queueAt b.bids p ++ [o.orderId]
    else queueAt b.bids p := by
  by_cases hs : o.side = Side.buy
  · rw [place, if_pos hs, queueAt_upsert_push]
    simp only [hs, true_and]
  · rw [place, if_neg hs, if_neg fun h => hs h.1]

theorem queueAt_asks_place : queueAt (b.place o).asks p =
    if o.side ≠ Side.buy ∧ p = o.price then queueAt b.asks p ++ [o.orderId]
    else queueAt b.asks p := by
  by_cases hs : o.side = Side.buy
  · rw [place, if_pos hs, if_neg fun h => h.1 hs]
  · rw [place, if_neg hs, queueAt_upsert_push]
    simp only [ne_eq, hs, not_false_eq_true, true_and]

theorem queueAt_bids_markCancelled : queueAt (b.markCancelled id o).bids p =
    if o.side = Side.buy ∧ p = o.price then (queueAt b.bids p).erase id
    else queueAt b.bids p := by
  by_cases hs : o.side = Side.buy
  · rw [markCancelled, removeOrderFromLevel, if_pos hs, queueAt_removeFromLevel]
    simp only [hs, true_and]
  · rw [markCancelled, removeOrderFromLevel, if_neg hs, if_neg fun h => hs h.1]

theorem queueAt_asks_markCancelled : queueAt (b.markCancelled id o).asks p =
    if o.side ≠ Side.buy ∧ p = o.price then (queueAt b.asks p).erase id
    else queueAt b.asks p := by
  by_cases hs : o.side = Side.buy
  · rw [markCancelled, removeOrderFromLevel, if_pos hs, if_neg fun h => h.1 hs]
  · rw [markCancelled, removeOrderFromLevel, if_neg hs, queueAt_removeFromLevel]
    simp only [ne_eq, hs, not_false_eq_true, true_and]

end OrderBook

end Convergence
