import Convergence.OrderBook.Book
import Mathlib.Algebra.BigOperators.Group.List.Basic
import Mathlib.Tactic.Ring

/-!
# What a market order does to the levels

The matching loops of `Convergence.OrderBook.Book` read and write three things at once: the order
table, the queue of a level and the level's cached total. This file says what they leave behind.

* Orders whose addresses are not in the queues keep their entries; every queued order keeps all its
  fields but the remaining quantity, which does not grow, and the flag, which is set exactly when
  nothing remains (`MatchedTable`).
* The queue that is left is the old queue without the orders that are no longer active
  (`matchQueue_spec`, `matchLevels_spec`), and the total has changed by what the queue has lost.

The last section says what the other mutators do to the table.

## Main definitions

* `isActiveAt`, `IsLiveAt`, `totalRemaining`, `Keyed`, `Order.ReducedTo`, `MatchedTable`,
  `queuedIds`, `trimLevel`.

## Main results

* `matchQueue_total`, `matchQueue_spec`: the inner loop.
* `matchLevels_spec`: the outer loop.
-/

namespace Convergence

variable {P : Type*}

/-- The order stored under `orderId` is active. -/
def isActiveAt (orders : OrderTable P) (orderId : Str) : Bool :=
  (orders.lookup orderId).any Order.isActive

/-- The order stored under `orderId` is not flagged, whatever remains of it. -/
def IsLiveAt (orders : OrderTable P) (orderId : Str) : Prop :=
  ∃ o, orders.lookup orderId = some o ∧ o.isCancelled = false

/-- The sum of the remaining quantities of the orders in a queue. -/
def totalRemaining (orders : OrderTable P) (queue : List Str) : ℤ :=
  (queue.map (remainingOf orders)).sum

theorem lookup_insert_eq (orders : OrderTable P) (id a : Str) (o : Order P) :
    (orders.insert id o).lookup a = if a = id then some o else orders.lookup a := by
  split_ifs with h
  · subst h
    exact AList.lookup_insert _
  · exact AList.lookup_insert_ne h

theorem isActiveAt_congr {before after : OrderTable P} {id : Str}
    (h : after.lookup id = before.lookup id) : isActiveAt after id = isActiveAt before id := by
  rw [isActiveAt, isActiveAt, h]

theorem remainingOf_congr {before after : OrderTable P} {id : Str}
    (h : after.lookup id = before.lookup id) : remainingOf after id = remainingOf before id := by
  rw [remainingOf, remainingOf, h]

theorem totalRemaining_congr {before after : OrderTable P} {queue : List Str}
    (h : ∀ id ∈ queue, after.lookup id = before.lookup id) :
    totalRemaining after queue = totalRemaining before queue :=
  congrArg List.sum (List.map_congr_left fun id hid => remainingOf_congr (h id hid))

@[simp] theorem totalRemaining_nil (orders : OrderTable P) : totalRemaining orders [] = 0 := rfl

@[simp] theorem totalRemaining_cons (orders : OrderTable P) (id : Str) (queue : List Str) :
    totalRemaining orders (id :: queue) = remainingOf orders id + totalRemaining orders queue := by
  simp [totalRemaining]

theorem isActiveAt_iff {orders : OrderTable P} {id : Str} :
    isActiveAt orders id = true ↔
      ∃ o, orders.lookup id = some o ∧ o.isCancelled = false ∧ 0 < o.remaining := by
  cases h : orders.lookup id <;> simp [isActiveAt, Order.isActive, h]

theorem isLiveAt_of_isActiveAt {orders : OrderTable P} {id : Str}
    (h : isActiveAt orders id = true) : IsLiveAt orders id := by
  obtain ⟨o, ho, hc, -⟩ := isActiveAt_iff.mp h
  exact ⟨o, ho, hc⟩

theorem isLiveAt_iff {orders : OrderTable P} {id : Str} :
    IsLiveAt orders id ↔ (orders.lookup id).map Order.isCancelled = some false :=
  Option.map_eq_some_iff.symm

theorem IsLiveAt.congr {before after : OrderTable P} {id : Str}
    (h : after.lookup id = before.lookup id) (hlive : IsLiveAt before id) : IsLiveAt after id :=
  hlive.imp fun _ ho => ⟨h.trans ho.1, ho.2⟩

theorem remainingOf_of_lookup {orders : OrderTable P} {id : Str} {o : Order P}
    (h : orders.lookup id = some o) : remainingOf orders id = o.remaining := by
  simp [remainingOf, h]

/-- Flagging an order does not change what remains of it. -/
theorem remainingOf_insert_flag {orders : OrderTable P} {id : Str} {o : Order P}
    (ho : orders.lookup id = some o) :
    remainingOf (orders.insert id { o with isCancelled := true }) = remainingOf orders := by
  funext a
  simp only [remainingOf, lookup_insert_eq]
  split_ifs with ha
  · rw [ha, ho, Option.map_some, Option.map_some]
  · rfl

/-- Every order is stored under its own id. -/
def Keyed (orders : OrderTable P) : Prop := ∀ id o, orders.lookup id = some o → o.orderId = id

theorem keyed_insert {orders : OrderTable P} (h : Keyed orders) {id : Str} {o : Order P}
    (ho : o.orderId = id) : Keyed (orders.insert id o) := fun a x hx => by
  rw [lookup_insert_eq] at hx
  split_ifs at hx with ha
  · rw [← Option.some.inj hx, ha, ho]
  · exact h a x hx

/-! ### Reduced orders -/

/-- `o'` is `o` after some of its quantity, possibly none and possibly all, has been filled. -/
def Order.ReducedTo (o o' : Order P) : Prop :=
  o' = { o with remaining := o'.remaining, isCancelled := decide (o'.remaining = 0) } ∧
    0 ≤ o'.remaining ∧ o'.remaining ≤ o.remaining

/-- `after` differs from `before` at most at the orders `ids`, which are reduced. -/
structure MatchedTable (before after : OrderTable P) (ids : List Str) : Prop where
  frame : ∀ id ∉ ids, after.lookup id = before.lookup id
  reduced : ∀ id ∈ ids, ∀ o, before.lookup id = some o →
    ∃ o', after.lookup id = some o' ∧ o.ReducedTo o'

theorem Order.ReducedTo.refl {o : Order P} (hc : o.isCancelled = false) (hr : 0 < o.remaining) :
    o.ReducedTo o := by
  refine ⟨?_, hr.le, le_rfl⟩
  rw [decide_eq_false hr.ne', ← hc]

theorem MatchedTable.refl {orders : OrderTable P} {ids : List Str}
    (h : ∀ id ∈ ids, isActiveAt orders id = true) : MatchedTable orders orders ids where
  frame _ _ := rfl
  reduced id hid o ho := by
    obtain ⟨o', ho', hc, hr⟩ := isActiveAt_iff.mp (h id hid)
    obtain rfl : o = o' := Option.some.inj (ho.symm.trans ho')
    exact ⟨o, ho, .refl hc hr⟩

/-- Tables matched one after the other on disjoint lists of orders. -/
theorem MatchedTable.append {t₁ t₂ t₃ : OrderTable P} {xs ys : List Str}
    (h₁ : MatchedTable t₁ t₂ xs) (h₂ : MatchedTable t₂ t₃ ys) (hd : xs.Disjoint ys) :
    MatchedTable t₁ t₃ (xs ++ ys) where
  frame id hid := by
    rw [List.mem_append, not_or] at hid
    rw [h₂.frame id hid.2, h₁.frame id hid.1]
  reduced id hid o ho := by
    rcases List.mem_append.mp hid with hx | hy
    · obtain ⟨o', ho', hred⟩ := h₁.reduced id hx o ho
      exact ⟨o', (h₂.frame id fun hy => hd hx hy).trans ho', hred⟩
    · exact h₂.reduced id hy o ((h₁.frame id fun hx => hd hx hy).trans ho)

/-- Rewriting one entry by a reduced order. -/
theorem MatchedTable.insert {orders : OrderTable P} {id : Str} {o o' : Order P}
    (ho : orders.lookup id = some o) (hred : o.ReducedTo o') :
    MatchedTable orders (orders.insert id o') [id] where
  frame a ha := AList.lookup_insert_ne (by simpa using ha)
  reduced a ha x hx := by
    obtain rfl : a = id := by simpa using ha
    obtain rfl : x = o := Option.some.inj (hx.symm.trans ho)
    exact ⟨o', AList.lookup_insert orders, hred⟩

/-! ### The inner loop -/

/-- The order after all of it has been filled. -/
def Order.usedUp (o : Order P) : Order P := { o with remaining := 0, isCancelled := true }

/-- The order after a part `n` of it has been filled. -/
def Order.lessBy (o : Order P) (n : ℤ) : Order P := { o with remaining := o.remaining - n }

@[simp] theorem Order.remaining_lessBy (o : Order P) (n : ℤ) :
    (o.lessBy n).remaining = o.remaining - n := rfl

theorem Order.reducedTo_usedUp {o : Order P} (hr : 0 < o.remaining) : o.ReducedTo o.usedUp :=
  ⟨rfl, le_rfl, hr.le⟩

theorem Order.reducedTo_lessBy {o : Order P} {n : ℤ} (hc : o.isCancelled = false) (h₀ : 0 < n)
    (hn : n < o.remaining) : o.ReducedTo (o.lessBy n) := by
  have hpos : 0 < (o.lessBy n).remaining := by
    rw [remaining_lessBy]
    omega
  refine ⟨?_, hpos.le, ?_⟩
  · rw [decide_eq_false hpos.ne', ← hc]
    rfl
  · rw [remaining_lessBy]
    omega

/-- The state after `n` of the order `o` stored under `id` is filled, the entry becoming `o'`. -/
def MatchState.record (s : MatchState P) (id : Str) (o : Order P) (n : ℤ) (o' : Order P) :
    MatchState P :=
  ⟨s.orders.insert id o', s.remaining - n, s.fills ++ [⟨o.orderId, o.price, n⟩]⟩

section Step

variable {id : Str} {queue : List Str} {s : MatchState P} {o : Order P}

theorem matchQueue_cons_stop (total : ℤ) (h : s.remaining ≤ 0) :
    matchQueue (id :: queue) total s = (id :: queue, total, s) := by
  simp [matchQueue, h.not_gt]

/-- The front order is used up: it leaves the queue and the loop goes on. -/
theorem matchQueue_cons_usedUp (total : ℤ) (hrem : 0 < s.remaining)
    (ho : s.orders.lookup id = some o) (hc : o.isCancelled = false)
    (h : o.remaining ≤ s.remaining) :
    matchQueue (id :: queue) total s =
      matchQueue queue (total - o.remaining) (s.record id o o.remaining o.usedUp) := by
  simp [matchQueue, hrem, ho, hc, min_eq_right h, MatchState.record, Order.usedUp]

/-- The front order outlasts the aggressor: the loop ends with the queue as it was. -/
theorem matchQueue_cons_lessBy (total : ℤ) (hrem : 0 < s.remaining)
    (ho : s.orders.lookup id = some o) (hc : o.isCancelled = false)
    (h : s.remaining < o.remaining) :
    matchQueue (id :: queue) total s =
      (id :: queue, total - s.remaining, s.record id o s.remaining (o.lessBy s.remaining)) := by
  have hne : o.remaining - s.remaining ≠ 0 := by omega
  simp [matchQueue, hrem, ho, hc, min_eq_left h.le, hne, MatchState.record, Order.lessBy]

end Step

/-- Whatever the queues and orders are, matching adds and drops no entry of the table, keeps every
order under its own id, and its fills name orders of the table. -/
structure MatchState.Follows (s s' : MatchState P) : Prop where
  mem : ∀ id, id ∈ s'.orders ↔ id ∈ s.orders
  keyed : Keyed s.orders → Keyed s'.orders
  fills : Keyed s.orders → ∀ f ∈ s'.fills, f ∈ s.fills ∨ f.orderId ∈ s.orders

namespace MatchState.Follows

theorem refl (s : MatchState P) : s.Follows s := ⟨fun _ => Iff.rfl, id, fun _ _ => Or.inl⟩

theorem trans {s₁ s₂ s₃ : MatchState P} (h₁ : s₁.Follows s₂) (h₂ : s₂.Follows s₃) :
    s₁.Follows s₃ where
  mem id := (h₂.mem id).trans (h₁.mem id)
  keyed h := h₂.keyed (h₁.keyed h)
  fills h f hf := by
    rcases h₂.fills (h₁.keyed h) f hf with hf' | hid
    · exact h₁.fills h f hf'
    · exact Or.inr ((h₁.mem _).mp hid)

theorem record {s : MatchState P} {id : Str} {o o' : Order P} (ho : s.orders.lookup id = some o)
    (hid : o'.orderId = o.orderId) (n : ℤ) : s.Follows (s.record id o n o') where
  mem a := by
    rw [MatchState.record, AList.mem_insert, or_iff_right_iff_imp]
    rintro rfl
    rw [← AList.lookup_isSome, ho, Option.isSome_some]
  keyed h := keyed_insert h (hid.trans (h id o ho))
  fills h f hf := by
    rcases List.mem_append.mp hf with hf | hf
    · exact Or.inl hf
    · obtain rfl := List.mem_singleton.mp hf
      refine Or.inr ?_
      rw [h id o ho, ← AList.lookup_isSome, ho, Option.isSome_some]

end MatchState.Follows

open MatchState in
theorem matchQueue_follows (queue : List Str) (total : ℤ) (s : MatchState P) :
    s.Follows (matchQueue queue total s).2.2 := by
  fun_induction matchQueue queue total s with
  | case1 => exact .refl _
  | case2 _ _ _ _ _ _ ih => exact ih
  | case3 _ _ _ _ _ _ _ _ ih => exact ih
  | case4 _ _ _ _ _ _ ho _ fillQty _ _ _ ih => exact (Follows.record ho (by rfl) fillQty).trans ih
  | case5 _ _ _ _ _ _ ho _ fillQty => exact Follows.record ho (by rfl) fillQty
  | case6 => exact .refl _

theorem matchLevels_follows (levels : List ((_ : P) × PriceLevel P)) (s : MatchState P) :
    s.Follows (matchLevels levels s).2 := by
  induction levels generalizing s with
  | nil => exact .refl s
  | cons e levels ih =>
    rw [matchLevels]
    split_ifs
    · have h := (matchQueue_follows e.2.orders e.2.totalQuantity s).trans (ih _)
      simp only
      split_ifs <;> exact h
    · exact .refl s

/-- The total is lowered by the quantity that the queue has lost, whatever that is, as long as
nothing in the queue is flagged. -/
theorem matchQueue_total (queue : List Str) (total : ℤ) (s : MatchState P) (hnd : queue.Nodup)
    (hlive : ∀ id ∈ queue, IsLiveAt s.orders id) :
    (matchQueue queue total s).2.1 = total - totalRemaining s.orders queue +
      totalRemaining (matchQueue queue total s).2.2.orders (matchQueue queue total s).1 := by
  induction queue generalizing total s with
  | nil => simp [matchQueue]
  | cons id queue ih =>
    obtain ⟨hid, hnd⟩ := List.nodup_cons.mp hnd
    have hframe (o' : Order P) : ∀ a ∈ queue,
        (s.orders.insert id o').lookup a = s.orders.lookup a := fun a ha =>
      AList.lookup_insert_ne fun h => hid (h ▸ ha)
    obtain ⟨o, ho, hc⟩ := hlive id List.mem_cons_self
    rcases le_or_gt s.remaining 0 with hrem | hrem
    · rw [matchQueue_cons_stop total hrem]
      ring
    rcases le_or_gt o.remaining s.remaining with hle | hlt
    · have hrest := ih (total - o.remaining) (s.record id o o.remaining o.usedUp) hnd
        fun a ha => .congr (hframe o.usedUp a ha) (hlive a (List.mem_cons_of_mem _ ha))
      rw [matchQueue_cons_usedUp total hrem ho hc hle, hrest, totalRemaining_cons,
        remainingOf_of_lookup ho,
        show totalRemaining (s.record id o o.remaining o.usedUp).orders queue = _ from
          totalRemaining_congr (hframe o.usedUp)]
      ring
    · have hself : (s.orders.insert id (o.lessBy s.remaining)).lookup id =
          some (o.lessBy s.remaining) := AList.lookup_insert _
      rw [matchQueue_cons_lessBy total hrem ho hc hlt]
      simp only [MatchState.record, totalRemaining_cons, remainingOf_of_lookup ho,
        remainingOf_of_lookup hself, totalRemaining_congr (hframe _), Order.remaining_lessBy]
      ring

/-- **The inner loop.** On a queue of distinct active orders it drops the orders that are used up
and lowers the total by the quantity the queue has lost. -/
theorem matchQueue_spec (queue : List Str) (total : ℤ) (s : MatchState P) (hnd : queue.Nodup)
    (hact : ∀ id ∈ queue, isActiveAt s.orders id = true) :
    (matchQueue queue total s).1 =
        queue.filter (isActiveAt (matchQueue queue total s).2.2.orders) ∧
      (matchQueue queue total s).2.1 = total - totalRemaining s.orders queue +
        totalRemaining (matchQueue queue total s).2.2.orders (matchQueue queue total s).1 ∧
      MatchedTable s.orders (matchQueue queue total s).2.2.orders queue := by
  refine and_left_comm.mp
    ⟨matchQueue_total queue total s hnd fun id hid => isLiveAt_of_isActiveAt (hact id hid), ?_⟩
  induction queue generalizing total s with
  | nil => exact ⟨rfl, .refl (by simp)⟩
  | cons id queue ih =>
    obtain ⟨hid, hnd⟩ := List.nodup_cons.mp hnd
    have hact' : ∀ a ∈ queue, isActiveAt s.orders a = true := fun a ha =>
      hact a (List.mem_cons_of_mem _ ha)
    have hdisj : [id].Disjoint queue := by simpa using hid
    have hactive (o' : Order P) : ∀ a ∈ queue, isActiveAt (s.orders.insert id o') a = true :=
      fun a ha => (isActiveAt_congr (AList.lookup_insert_ne fun (h : a = id) => hid (h ▸ ha))).trans
        (hact' a ha)
    obtain ⟨o, ho, hc, hr⟩ := isActiveAt_iff.mp (hact id List.mem_cons_self)
    rcases le_or_gt s.remaining 0 with hrem | hrem
    · rw [matchQueue_cons_stop total hrem]
      exact ⟨(List.filter_eq_self.mpr hact).symm, .refl hact⟩
    rcases le_or_gt o.remaining s.remaining with hle | hlt
    · rw [matchQueue_cons_usedUp total hrem ho hc hle]
      obtain ⟨hq, hm⟩ := ih (total - o.remaining) (s.record id o o.remaining o.usedUp) hnd
        (hactive o.usedUp)
      refine ⟨?_, (MatchedTable.insert ho (Order.reducedTo_usedUp hr)).append hm hdisj⟩
      have hgone : isActiveAt (matchQueue queue (total - o.remaining)
          (s.record id o o.remaining o.usedUp)).2.2.orders id = false := by
        rw [isActiveAt_congr (hm.frame id hid)]
        simp [isActiveAt, MatchState.record, Order.usedUp, Order.isActive]
      rw [List.filter_cons_of_neg (by simp [hgone]), ← hq]
    · rw [matchQueue_cons_lessBy total hrem ho hc hlt]
      have hself : (s.orders.insert id (o.lessBy s.remaining)).lookup id =
          some (o.lessBy s.remaining) := AList.lookup_insert _
      refine ⟨(List.filter_eq_self.mpr fun a ha => ?_).symm,
        (MatchedTable.insert ho (Order.reducedTo_lessBy hc hrem hlt)).append
          (.refl (hactive _)) hdisj⟩
      rcases List.mem_cons.mp ha with rfl | ha
      · refine isActiveAt_iff.mpr ⟨_, hself, hc, ?_⟩
        rw [Order.remaining_lessBy]
        omega
      · exact hactive _ a ha

/-! ### The outer loop -/

/-- The addresses in the queues of a list of levels. -/
def queuedIds (levels : List ((_ : P) × PriceLevel P)) : List Str :=
  levels.flatMap fun e => e.2.orders

section QueuedIds

variable {e : (_ : P) × PriceLevel P} {levels : List ((_ : P) × PriceLevel P)}

theorem queuedIds_cons : queuedIds (e :: levels) = e.2.orders ++ queuedIds levels := rfl

/-- The first level and the levels behind it repeat no address and share none. -/
theorem nodup_queuedIds_cons : (queuedIds (e :: levels)).Nodup ↔
    e.2.orders.Nodup ∧ (queuedIds levels).Nodup ∧ e.2.orders.Disjoint (queuedIds levels) :=
  List.nodup_append'

theorem forall_mem_queuedIds_cons {p : Str → Prop} : (∀ id ∈ queuedIds (e :: levels), p id) ↔
    (∀ id ∈ e.2.orders, p id) ∧ ∀ id ∈ queuedIds levels, p id :=
  List.forall_mem_append

end QueuedIds

/-- What matching leaves of a level: its active orders, or nothing when there is none. -/
def trimLevel (before after : OrderTable P) (level : PriceLevel P) : Option (PriceLevel P) :=
  if level.orders.filter (isActiveAt after) = [] then none
  else some { level with
    totalQuantity := level.totalQuantity - totalRemaining before level.orders +
      totalRemaining after (level.orders.filter (isActiveAt after))
    orders := level.orders.filter (isActiveAt after) }

/-- Matching leaves a level alone when it leaves its orders alone. -/
theorem trimLevel_congr {t₁ t₁' t₂ t₂' : OrderTable P} {level : PriceLevel P}
    (h₁ : ∀ id ∈ level.orders, t₁'.lookup id = t₁.lookup id)
    (h₂ : ∀ id ∈ level.orders, t₂'.lookup id = t₂.lookup id) :
    trimLevel t₁' t₂' level = trimLevel t₁ t₂ level := by
  have hf : level.orders.filter (isActiveAt t₂') = level.orders.filter (isActiveAt t₂) :=
    List.filter_congr fun id hid => isActiveAt_congr (h₂ id hid)
  have ht : totalRemaining t₂' (level.orders.filter (isActiveAt t₂)) =
      totalRemaining t₂ (level.orders.filter (isActiveAt t₂)) :=
    totalRemaining_congr fun id hid => h₂ id (List.mem_of_mem_filter hid)
  rw [trimLevel, trimLevel, hf, ht, totalRemaining_congr h₁]

theorem trimLevel_self {orders : OrderTable P} {level : PriceLevel P} (hne : level.orders ≠ [])
    (hact : ∀ id ∈ level.orders, isActiveAt orders id = true) :
    trimLevel orders orders level = some level := by
  rw [trimLevel, List.filter_eq_self.mpr hact, if_neg hne, sub_add_cancel]

/-- **The outer loop.** On levels with non-empty queues of active orders, all distinct, it trims
every level by the orders that are used up. -/
theorem matchLevels_spec (levels : List ((_ : P) × PriceLevel P)) (s : MatchState P)
    (hnd : (queuedIds levels).Nodup) (hne : ∀ e ∈ levels, e.2.orders ≠ [])
    (hact : ∀ id ∈ queuedIds levels, isActiveAt s.orders id = true) :
    (matchLevels levels s).1 = levels.filterMap (fun e =>
        (trimLevel s.orders (matchLevels levels s).2.orders e.2).map fun level =>
          (⟨e.1, level⟩ : (_ : P) × PriceLevel P)) ∧
      MatchedTable s.orders (matchLevels levels s).2.orders (queuedIds levels) := by
  induction levels generalizing s with
  | nil => exact ⟨rfl, .refl (by simp [queuedIds])⟩
  | cons e levels ih =>
    obtain ⟨hnd₁, hnd₂, hdisj⟩ := nodup_queuedIds_cons.mp hnd
    obtain ⟨hact₁, hact₂⟩ := forall_mem_queuedIds_cons.mp hact
    rcases le_or_gt s.remaining 0 with hrem | hrem
    · have hstop : matchLevels (e :: levels) s = (e :: levels, s) := by
        simp [matchLevels, hrem.not_gt]
      rw [hstop]
      refine ⟨?_, .refl hact⟩
      have hself : ∀ e' ∈ e :: levels, (trimLevel s.orders s.orders e'.2).map
          (fun level => (⟨e'.1, level⟩ : (_ : P) × PriceLevel P)) = some e' := fun e' he' => by
        rw [trimLevel_self (hne e' he') fun id hid =>
          hact id (List.mem_flatMap.mpr ⟨e', he', hid⟩), Option.map_some]
      rw [List.filterMap_congr hself, List.filterMap_some]
    · obtain ⟨hq, ht, hm⟩ := matchQueue_spec e.2.orders e.2.totalQuantity s hnd₁ hact₁
      set s₁ := (matchQueue e.2.orders e.2.totalQuantity s).2.2 with hs₁
      -- The levels behind this one do not share an order with it.
      have hframe : ∀ id ∈ queuedIds levels, s₁.orders.lookup id = s.orders.lookup id :=
        fun id hid => hm.frame id fun h => hdisj h hid
      obtain ⟨hl, hm₂⟩ := ih s₁ hnd₂ (fun e' he' => hne e' (List.mem_cons_of_mem _ he'))
        fun id hid => (isActiveAt_congr (hframe id hid)).trans (hact₂ id hid)
      set s₂ := (matchLevels levels s₁).2 with hs₂
      have hframe₂ : ∀ id ∈ e.2.orders, s₂.orders.lookup id = s₁.orders.lookup id :=
        fun id hid => hm₂.frame id fun h => hdisj hid h
      have htrim : trimLevel s.orders s₂.orders e.2 =
          if (matchQueue e.2.orders e.2.totalQuantity s).1 = [] then none
          else some { e.2 with
            totalQuantity := (matchQueue e.2.orders e.2.totalQuantity s).2.1
            orders := (matchQueue e.2.orders e.2.totalQuantity s).1 } := by
        rw [trimLevel_congr (fun _ _ => rfl) hframe₂, trimLevel, ht, hq]
      have hrest : (matchLevels levels s₁).1 = levels.filterMap fun e' =>
          (trimLevel s.orders s₂.orders e'.2).map fun level => ⟨e'.1, level⟩ := by
        rw [hl]
        refine List.filterMap_congr fun e' he' => ?_
        rw [trimLevel_congr (fun id hid => hframe id (List.mem_flatMap.mpr ⟨e', he', hid⟩))
          fun _ _ => rfl]
      have hstep : matchLevels (e :: levels) s =
          (if (matchQueue e.2.orders e.2.totalQuantity s).1 = [] then (matchLevels levels s₁).1
            else ⟨e.1, { e.2 with
              totalQuantity := (matchQueue e.2.orders e.2.totalQuantity s).2.1
              orders := (matchQueue e.2.orders e.2.totalQuantity s).1 }⟩ ::
                (matchLevels levels s₁).1, s₂) := by
        simp only [matchLevels, hrem, if_true, ← hs₁, ← hs₂]
        split_ifs <;> rfl
      rw [hstep]
      refine ⟨?_, hm.append hm₂ hdisj⟩
      rw [List.filterMap_cons, htrim, hrest]
      split_ifs <;> rfl

/-- A market order adds and drops no entry of the table and fills orders of the table only. -/
theorem OrderBook.matchMarketOrder_follows [LinearOrder P] (b : OrderBook P) (side : Side) (q : ℤ) :
    (⟨b.orders, q, []⟩ : MatchState P).Follows
      ⟨(b.matchMarketOrder side q).1.orders, q, (b.matchMarketOrder side q).2⟩ := by
  have hstate {s s' : MatchState P} (h : s.Follows s') : s.Follows ⟨s'.orders, q, s'.fills⟩ :=
    ⟨h.mem, h.keyed, h.fills⟩
  rw [OrderBook.matchMarketOrder]
  split_ifs
  · exact hstate (matchLevels_follows b.asks.entries ⟨b.orders, q, []⟩)
  · exact hstate (matchLevels_follows b.bids.entries ⟨b.orders, q, []⟩)

/-! ### Tables that agree -/

/-- States that look the same: the tables agree in every lookup, in whatever order they are
iterated. -/
structure MatchState.Agree (s s' : MatchState P) : Prop where
  lookup : ∀ id, s.orders.lookup id = s'.orders.lookup id
  remaining : s.remaining = s'.remaining
  fills : s.fills = s'.fills

theorem MatchState.Agree.record {s s' : MatchState P} (h : s.Agree s') (id : Str) (o : Order P)
    (n : ℤ) (o' : Order P) : (s.record id o n o').Agree (s'.record id o n o') where
  lookup a := by
    simp only [MatchState.record, lookup_insert_eq, h.lookup]
  remaining := by rw [MatchState.record, MatchState.record, h.remaining]
  fills := by rw [MatchState.record, MatchState.record, h.fills]

theorem matchQueue_agree (queue : List Str) (total : ℤ) {s s' : MatchState P} (h : s.Agree s') :
    (matchQueue queue total s).2.2.Agree (matchQueue queue total s').2.2 := by
  induction queue generalizing total s s' with
  | nil => exact h
  | cons id queue ih =>
    by_cases hrem : 0 < s.remaining
    · cases ho : s.orders.lookup id with
      | none =>
        simp only [matchQueue, ← h.lookup, ← h.remaining, ho, hrem, if_true]
        exact ih total h
      | some o =>
        have ho' := (h.lookup id).symm.trans ho
        cases hc : o.isCancelled with
        | true =>
          simp only [matchQueue, ← h.lookup, ← h.remaining, ho, hc, hrem, if_true]
          exact ih total h
        | false =>
          rcases le_or_gt o.remaining s.remaining with hle | hlt
          · rw [matchQueue_cons_usedUp _ hrem ho hc hle,
              matchQueue_cons_usedUp _ (h.remaining ▸ hrem) ho' hc (h.remaining ▸ hle)]
            exact ih _ (h.record _ _ _ _)
          · rw [matchQueue_cons_lessBy _ hrem ho hc hlt,
              matchQueue_cons_lessBy _ (h.remaining ▸ hrem) ho' hc (h.remaining ▸ hlt),
              ← h.remaining]
            exact h.record _ _ _ _
    · have hstop : s.remaining ≤ 0 := not_lt.mp hrem
      rw [matchQueue_cons_stop _ hstop, matchQueue_cons_stop _ (h.remaining ▸ hstop)]
      exact h

/-- The state after the first level, from which the other levels are matched. -/
theorem snd_matchLevels_cons (e : (_ : P) × PriceLevel P) (levels : List ((_ : P) × PriceLevel P))
    (s : MatchState P) : (matchLevels (e :: levels) s).2 =
      if 0 < s.remaining then
        (matchLevels levels (matchQueue e.2.orders e.2.totalQuantity s).2.2).2
      else s := by
  simp only [matchLevels]
  split_ifs <;> rfl

theorem matchLevels_agree (levels : List ((_ : P) × PriceLevel P)) {s s' : MatchState P}
    (h : s.Agree s') : (matchLevels levels s).2.Agree (matchLevels levels s').2 := by
  induction levels generalizing s s' with
  | nil => exact h
  | cons e levels ih =>
    rw [snd_matchLevels_cons, snd_matchLevels_cons, ← h.remaining]
    split_ifs
    · exact ih (matchQueue_agree e.2.orders e.2.totalQuantity h)
    · exact h

/-- A market order sees the levels and what the table says about each id. -/
theorem OrderBook.fills_congr [LinearOrder P] {b b' : OrderBook P} (hbids : b.bids = b'.bids)
    (hasks : b.asks = b'.asks) (hl : ∀ id, b.orders.lookup id = b'.orders.lookup id) (side : Side)
    (q : ℤ) : (b.matchMarketOrder side q).2 = (b'.matchMarketOrder side q).2 := by
  have hagree : (⟨b.orders, q, []⟩ : MatchState P).Agree ⟨b'.orders, q, []⟩ := ⟨hl, rfl, rfl⟩
  rw [OrderBook.matchMarketOrder, OrderBook.matchMarketOrder, ← hbids, ← hasks]
  split_ifs
  · exact (matchLevels_agree b.asks.entries hagree).fills
  · exact (matchLevels_agree b.bids.entries hagree).fills

/-! ### Tables of orders under insertion and cancellation -/

namespace OrderBook

variable [LinearOrder P] {b : OrderBook P}

theorem orders_place (b : OrderBook P) (o : Order P) :
    (b.place o).orders = b.orders.insert o.orderId o := by
  rw [place]
  split_ifs <;> rfl

theorem orders_markCancelled (b : OrderBook P) (id : Str) (o : Order P) :
    (b.markCancelled id o).orders = b.orders.insert id { o with isCancelled := true } := by
  rw [markCancelled, removeOrderFromLevel]
  split_ifs <;> rfl

theorem keyed_place (h : Keyed b.orders) (o : Order P) : Keyed (b.place o).orders := by
  rw [orders_place]
  exact keyed_insert h rfl

theorem keyed_cancelOrder (h : Keyed b.orders) (id : Str) : Keyed (b.cancelOrder id).1.orders := by
  obtain hcancel | ⟨o, ho, -, hcancel⟩ := cancelOrder_cases b id
  · rwa [hcancel]
  · rw [hcancel, orders_markCancelled]
    exact keyed_insert h (h id o ho)

theorem mem_orders_cancelOrder {id a : Str} : a ∈ (b.cancelOrder id).1.orders ↔ a ∈ b.orders := by
  obtain hcancel | ⟨o, ho, -, hcancel⟩ := cancelOrder_cases b id
  · rw [hcancel]
  · rw [hcancel, orders_markCancelled, AList.mem_insert, or_iff_right_iff_imp]
    rintro rfl
    rw [← AList.lookup_isSome, ho, Option.isSome_some]

end OrderBook

end Convergence
