import Convergence.OrderBook.Invariant

/-!
# The ledger of an order

What the matching loops take from the orders they pass, for any queues: orders may already be
flagged, occur twice or be missing from the table. An iteration of the inner loop skips an order,
uses it up or takes a part of it (`QueueWalk`), and every fact below is an induction over the walk.
What an order loses is what its fills say, and an order that is flagged does not change any more.

## Main definitions

* `filled`: the quantity of the fills of one order.
* `Order.Ages`, `Ages`: an order, and a table, later on.
* `QueueWalk`: the iterations of the inner loop.
* `MatchState.Settles`: fills against remaining quantities.

## Main results

* `matchQueue_walk`, `QueueWalk.settles`, `matchLevels_settles`.
* `OrderBook.matchMarketOrder_settles`.
-/

namespace Convergence

variable {P : Type*}

/-- The quantity filled of the order `id`. -/
def filled (fills : List (Fill P)) (id : Str) : ℤ :=
  ((fills.filter fun f => f.orderId = id).map Fill.quantity).sum

@[simp] theorem filled_nil (id : Str) : filled ([] : List (Fill P)) id = 0 := rfl

@[simp] theorem filled_append (fills fills' : List (Fill P)) (id : Str) :
    filled (fills ++ fills') id = filled fills id + filled fills' id := by
  simp [filled]

theorem filled_singleton (f : Fill P) (id : Str) :
    filled [f] id = if f.orderId = id then f.quantity else 0 := by
  by_cases h : f.orderId = id <;> simp [filled, h]

theorem filled_of_forall_ne {fills : List (Fill P)} {id : Str}
    (h : ∀ f ∈ fills, f.orderId ≠ id) : filled fills id = 0 := by
  rw [filled, List.filter_eq_nil_iff.mpr fun f hf => by simpa using h f hf]
  rfl

/-! ### Orders later on -/

/-- `o'` is `o` later on: no more remains, and a flagged order is as it was. -/
structure Order.Ages (o o' : Order P) : Prop where
  fields : o' = { o with remaining := o'.remaining, isCancelled := o'.isCancelled }
  remaining_le : o'.remaining ≤ o.remaining
  settled : o.isCancelled = true → o' = o

namespace Order.Ages

variable {o o' o'' : Order P}

theorem refl (o : Order P) : o.Ages o := ⟨rfl, le_rfl, fun _ => rfl⟩

theorem trans (h : o.Ages o') (h' : o'.Ages o'') : o.Ages o'' where
  fields := by rw [h'.fields, h.fields]
  remaining_le := h'.remaining_le.trans h.remaining_le
  settled hc := by
    obtain rfl := h.settled hc
    exact h'.settled hc

theorem isCancelled (h : o.Ages o') (hc : o.isCancelled = true) : o'.isCancelled = true := by
  rwa [h.settled hc]

theorem side (h : o.Ages o') : o'.side = o.side := by rw [h.fields]

theorem price (h : o.Ages o') : o'.price = o.price := by rw [h.fields]

theorem quantity (h : o.Ages o') : o'.quantity = o.quantity := by rw [h.fields]

theorem orderId (h : o.Ages o') : o'.orderId = o.orderId := by rw [h.fields]

end Order.Ages

/-- Every order of `before` is in `after`, later on. -/
def Ages (before after : OrderTable P) : Prop :=
  ∀ id o, before.lookup id = some o → ∃ o', after.lookup id = some o' ∧ o.Ages o'

theorem Ages.refl (orders : OrderTable P) : Ages orders orders := fun _ o ho => ⟨o, ho, .refl o⟩

theorem Ages.trans {t₁ t₂ t₃ : OrderTable P} (h₁ : Ages t₁ t₂) (h₂ : Ages t₂ t₃) : Ages t₁ t₃ := by
  intro id o ho
  obtain ⟨o', ho', hage⟩ := h₁ id o ho
  obtain ⟨o'', ho'', hage'⟩ := h₂ id o' ho'
  exact ⟨o'', ho'', hage.trans hage'⟩

/-- Rewriting one entry by the order later on. -/
theorem Ages.insert {orders : OrderTable P} {id : Str} {o o' : Order P}
    (ho : orders.lookup id = some o) (hage : o.Ages o') : Ages orders (orders.insert id o') := by
  intro a x hx
  rw [lookup_insert_eq]
  split_ifs with ha
  · subst ha
    obtain rfl := Option.some.inj (hx.symm.trans ho)
    exact ⟨o', rfl, hage⟩
  · exact ⟨x, hx, .refl x⟩

/-- A new order does not touch the others. -/
theorem Ages.insert_of_notMem {orders : OrderTable P} {o : Order P} (ho : o.orderId ∉ orders) :
    Ages orders (orders.insert o.orderId o) := by
  intro a x hx
  have hne : a ≠ o.orderId := by
    rintro rfl
    rw [AList.lookup_eq_none.mpr ho] at hx
    cases hx
  exact ⟨x, (AList.lookup_insert_ne hne).trans hx, .refl x⟩

theorem mem_of_lookup {orders : OrderTable P} {id : Str} {o : Order P}
    (ho : orders.lookup id = some o) : id ∈ orders := by
  rw [← AList.lookup_isSome, ho, Option.isSome_some]

theorem exists_lookup {orders : OrderTable P} {id : Str} (h : id ∈ orders) :
    ∃ o, orders.lookup id = some o :=
  Option.isSome_iff_exists.mp (AList.lookup_isSome.mpr h)

/-- No order has less than nothing remaining, and one that is not flagged has something. -/
def Positive (orders : OrderTable P) : Prop :=
  ∀ id o, orders.lookup id = some o → 0 ≤ o.remaining ∧ (o.isCancelled = false → 0 < o.remaining)

theorem Positive.insert {orders : OrderTable P} (h : Positive orders) (id : Str) {o : Order P}
    (h₀ : 0 ≤ o.remaining) (hpos : o.isCancelled = false → 0 < o.remaining) :
    Positive (orders.insert id o) := by
  intro a x hx
  rw [lookup_insert_eq] at hx
  split_ifs at hx with ha
  · obtain rfl := Option.some.inj hx
    exact ⟨h₀, hpos⟩
  · exact h a x hx

/-! ### The iterations of the inner loop -/

/-- `QueueWalk queue s queue' s'`: the inner loop, started on `queue` in the state `s`, leaves
`queue'` and `s'`. -/
inductive QueueWalk : List Str → MatchState P → List Str → MatchState P → Prop
  | stop (queue : List Str) (s : MatchState P) : QueueWalk queue s queue s
  | skip {id queue s queue' s'} (hrem : 0 < s.remaining)
      (hskip : ∀ o, s.orders.lookup id = some o → o.isCancelled = true)
      (h : QueueWalk queue s queue' s') : QueueWalk (id :: queue) s queue' s'
  | usedUp {id queue s queue' s' o} (hrem : 0 < s.remaining) (ho : s.orders.lookup id = some o)
      (hc : o.isCancelled = false) (hle : o.remaining ≤ s.remaining)
      (h : QueueWalk queue (s.record id o o.remaining o.usedUp) queue' s') :
      QueueWalk (id :: queue) s queue' s'
  | lessBy {id queue s o} (hrem : 0 < s.remaining) (ho : s.orders.lookup id = some o)
      (hc : o.isCancelled = false) (hlt : s.remaining < o.remaining) :
      QueueWalk (id :: queue) s (id :: queue) (s.record id o s.remaining (o.lessBy s.remaining))

theorem matchQueue_cons_skip {id : Str} {queue : List Str} {s : MatchState P} (total : ℤ)
    (hrem : 0 < s.remaining) (h : ∀ o, s.orders.lookup id = some o → o.isCancelled = true) :
    matchQueue (id :: queue) total s = matchQueue queue total s := by
  cases ho : s.orders.lookup id with
  | none => simp [matchQueue, hrem, ho]
  | some o => simp [matchQueue, hrem, ho, h o ho]

theorem matchQueue_walk (queue : List Str) (total : ℤ) (s : MatchState P) :
    QueueWalk queue s (matchQueue queue total s).1 (matchQueue queue total s).2.2 := by
  induction queue generalizing total s with
  | nil => exact .stop [] s
  | cons id queue ih =>
    rcases le_or_gt s.remaining 0 with hrem | hrem
    · rw [matchQueue_cons_stop total hrem]
      exact .stop _ s
    by_cases hskip : ∀ o, s.orders.lookup id = some o → o.isCancelled = true
    · rw [matchQueue_cons_skip total hrem hskip]
      exact .skip hrem hskip (ih total s)
    · simp only [not_forall, Bool.not_eq_true] at hskip
      obtain ⟨o, ho, hc⟩ := hskip
      rcases le_or_gt o.remaining s.remaining with hle | hlt
      · rw [matchQueue_cons_usedUp total hrem ho hc hle]
        exact .usedUp hrem ho hc hle (ih _ _)
      · rw [matchQueue_cons_lessBy total hrem ho hc hlt]
        exact .lessBy hrem ho hc hlt

namespace QueueWalk

variable {queue queue' : List Str} {s s' : MatchState P}

/-- The queue loses its front. -/
theorem suffix (h : QueueWalk queue s queue' s') : queue' <:+ queue := by
  induction h with
  | stop => exact List.suffix_rfl
  | skip _ _ _ ih => exact ih.trans (List.suffix_cons _ _)
  | usedUp _ _ _ _ _ ih => exact ih.trans (List.suffix_cons _ _)
  | lessBy => exact List.suffix_rfl

/-- Orders outside the queue are left alone. -/
theorem frame (h : QueueWalk queue s queue' s') {id : Str} (hid : id ∉ queue) :
    s'.orders.lookup id = s.orders.lookup id := by
  induction h with
  | stop => rfl
  | skip _ _ _ ih => exact ih fun hmem => hid (List.mem_cons_of_mem _ hmem)
  | usedUp _ _ _ _ _ ih =>
    rw [ih fun hmem => hid (List.mem_cons_of_mem _ hmem)]
    exact AList.lookup_insert_ne fun heq => hid (heq ▸ List.mem_cons_self)
  | lessBy => exact AList.lookup_insert_ne fun heq => hid (heq ▸ List.mem_cons_self)

/-- What stays in a queue without repetitions keeps its flag. -/
theorem flag (h : QueueWalk queue s queue' s') (hnd : queue.Nodup) {id : Str} (hid : id ∈ queue') :
    (s'.orders.lookup id).map Order.isCancelled = (s.orders.lookup id).map Order.isCancelled := by
  induction h with
  | stop => rfl
  | skip _ _ _ ih => exact ih (List.nodup_cons.mp hnd).2 hid
  | @usedUp a queue s queue' s' o _ _ _ _ h ih =>
    have hne : id ≠ a := fun heq => (List.nodup_cons.mp hnd).1 (heq ▸ h.suffix.subset hid)
    rw [ih (List.nodup_cons.mp hnd).2 hid, MatchState.record, AList.lookup_insert_ne hne]
  | @lessBy a queue s o _ ho =>
    rw [MatchState.record, lookup_insert_eq]
    split_ifs with ha
    · subst ha
      rw [ho]
      rfl
    · rfl

end QueueWalk

/-! ### Fills against remaining quantities -/

/-- What matching does to the ledger: fills of positive quantity of orders that were not flagged, in
all as much as the aggressor got, and each order lost what was filled of it. -/
structure MatchState.Settles (s s' : MatchState P) : Prop where
  keyed : Keyed s'.orders
  positive : Positive s'.orders
  mem : ∀ id ∈ s'.orders, id ∈ s.orders
  ages : Ages s.orders s'.orders
  remaining : 0 ≤ s.remaining → 0 ≤ s'.remaining
  fills : ∃ new, s'.fills = s.fills ++ new ∧
    (∀ f ∈ new, 0 < f.quantity ∧ ∃ o, s.orders.lookup f.orderId = some o ∧ o.isCancelled = false) ∧
    (new.map Fill.quantity).sum = s.remaining - s'.remaining ∧
    ∀ id o o', s.orders.lookup id = some o → s'.orders.lookup id = some o' →
      o'.remaining + filled new id = o.remaining

namespace MatchState.Settles

variable {s s₁ s₂ s₃ : MatchState P}

theorem refl (hk : Keyed s.orders) (hp : Positive s.orders) : s.Settles s where
  keyed := hk
  positive := hp
  mem _ := id
  ages := .refl _
  remaining := id
  fills := by
    refine ⟨[], (List.append_nil _).symm, by simp, (sub_self _).symm, fun a o o' ho ho' => ?_⟩
    obtain rfl := Option.some.inj (ho.symm.trans ho')
    exact add_zero _

theorem trans (h₁ : s₁.Settles s₂) (h₂ : s₂.Settles s₃) : s₁.Settles s₃ where
  keyed := h₂.keyed
  positive := h₂.positive
  mem id hid := h₁.mem id (h₂.mem id hid)
  ages := h₁.ages.trans h₂.ages
  remaining h := h₂.remaining (h₁.remaining h)
  fills := by
    obtain ⟨new, heq, hnew, hsum, hfilled⟩ := h₁.fills
    obtain ⟨new', heq', hnew', hsum', hfilled'⟩ := h₂.fills
    refine ⟨new ++ new', by rw [heq', heq, List.append_assoc], fun f hf => ?_, ?_, ?_⟩
    · rcases List.mem_append.mp hf with hf | hf
      · exact hnew f hf
      · obtain ⟨hpos, o₂, ho₂, hc₂⟩ := hnew' f hf
        obtain ⟨o₁, ho₁⟩ := exists_lookup (h₁.mem _ (mem_of_lookup ho₂))
        obtain ⟨o₂', ho₂', hage⟩ := h₁.ages _ o₁ ho₁
        obtain rfl := Option.some.inj (ho₂'.symm.trans ho₂)
        refine ⟨hpos, o₁, ho₁, Bool.eq_false_iff.mpr fun hc => ?_⟩
        rw [hage.isCancelled hc] at hc₂
        cases hc₂
    · rw [List.map_append, List.sum_append, hsum, hsum']
      ring
    · intro id o o₃ ho ho₃
      obtain ⟨o₂, ho₂, -⟩ := h₁.ages id o ho
      rw [filled_append, add_comm (filled new id), ← add_assoc, hfilled' id o₂ o₃ ho₂ ho₃,
        hfilled id o o₂ ho ho₂]

/-- Filling `n` of an order that is not flagged. -/
theorem record (hk : Keyed s.orders) (hp : Positive s.orders) {id : Str} {o o' : Order P} {n : ℤ}
    (ho : s.orders.lookup id = some o) (hc : o.isCancelled = false) (hn : 0 < n)
    (hle : n ≤ s.remaining)
    (ho' : o' = { o with remaining := o.remaining - n, isCancelled := o'.isCancelled })
    (hnonneg : 0 ≤ o'.remaining) (hpos : o'.isCancelled = false → 0 < o'.remaining) :
    s.Settles (s.record id o n o') := by
  have hrem : o'.remaining = o.remaining - n := by rw [ho']
  have hage : o.Ages o' :=
    { fields := by rw [ho']
      remaining_le := by omega
      settled := fun h => absurd h (by simp [hc]) }
  refine
    { keyed := keyed_insert hk (hage.orderId.trans (hk id o ho))
      positive := hp.insert id hnonneg hpos
      mem := fun a ha => ?_
      ages := .insert ho hage
      remaining := fun _ => sub_nonneg.mpr hle
      fills := ⟨[⟨o.orderId, o.price, n⟩], rfl, fun f hf => ?_, ?_, fun a x x' hx hx' => ?_⟩ }
  · rcases (AList.mem_insert _).mp ha with rfl | ha
    · exact mem_of_lookup ho
    · exact ha
  · obtain rfl := List.mem_singleton.mp hf
    exact ⟨hn, o, (hk id o ho).symm ▸ ho, hc⟩
  · simp [MatchState.record]
  · rw [MatchState.record, lookup_insert_eq] at hx'
    rw [filled_singleton, hk id o ho]
    split_ifs at hx' with ha
    · subst ha
      obtain rfl := Option.some.inj hx'
      obtain rfl := Option.some.inj (hx.symm.trans ho)
      rw [if_pos rfl, hrem, sub_add_cancel]
    · obtain rfl := Option.some.inj (hx.symm.trans hx')
      rw [if_neg (Ne.symm ha), add_zero]

end MatchState.Settles

theorem QueueWalk.settles {queue queue' : List Str} {s s' : MatchState P}
    (h : QueueWalk queue s queue' s') (hk : Keyed s.orders) (hp : Positive s.orders) :
    s.Settles s' := by
  induction h with
  | stop => exact .refl hk hp
  | skip _ _ _ ih => exact ih hk hp
  | @usedUp id queue s queue' s' o hrem ho hc hle _ ih =>
    have hstep : s.Settles (s.record id o o.remaining o.usedUp) :=
      .record hk hp ho hc ((hp id o ho).2 hc) hle (by simp [Order.usedUp]) le_rfl (by
        simp [Order.usedUp])
    exact hstep.trans (ih hstep.keyed hstep.positive)
  | lessBy hrem ho hc hlt =>
    exact .record hk hp ho hc hrem le_rfl rfl (by simpa using hlt.le) fun _ => by simpa using hlt

/-! ### The outer loop -/

theorem matchLevels_settles (levels : List ((_ : P) × PriceLevel P)) {s : MatchState P}
    (hk : Keyed s.orders) (hp : Positive s.orders) : s.Settles (matchLevels levels s).2 := by
  induction levels generalizing s with
  | nil => exact .refl hk hp
  | cons e levels ih =>
    rw [matchLevels]
    split_ifs
    · have hqueue := (matchQueue_walk e.2.orders e.2.totalQuantity s).settles hk hp
      have hall := hqueue.trans (ih hqueue.keyed hqueue.positive)
      dsimp only
      split_ifs <;> exact hall
    · exact .refl hk hp

/-- The levels that are left are old levels with the fronts of their queues gone. -/
theorem exists_of_mem_matchLevels {levels : List ((_ : P) × PriceLevel P)} {s : MatchState P}
    {e : (_ : P) × PriceLevel P} (he : e ∈ (matchLevels levels s).1) :
    ∃ e' ∈ levels, e'.1 = e.1 ∧ e.2.orders <:+ e'.2.orders := by
  induction levels generalizing s with
  | nil => exact absurd he List.not_mem_nil
  | cons x levels ih =>
    have hwalk := matchQueue_walk x.2.orders x.2.totalQuantity s
    rw [matchLevels] at he
    split_ifs at he with hrem
    · dsimp only at he
      split_ifs at he with hnil
      · exact (ih he).imp fun _ h => ⟨List.mem_cons_of_mem _ h.1, h.2⟩
      · rcases List.mem_cons.mp he with rfl | he
        · exact ⟨x, List.mem_cons_self, rfl, hwalk.suffix⟩
        · exact (ih he).imp fun _ h => ⟨List.mem_cons_of_mem _ h.1, h.2⟩
    · exact ⟨e, he, rfl, List.suffix_rfl⟩

theorem queuedIds_matchLevels_subset (levels : List ((_ : P) × PriceLevel P)) (s : MatchState P) :
    queuedIds (matchLevels levels s).1 ⊆ queuedIds levels := by
  intro id hid
  obtain ⟨e, he, hid⟩ := List.mem_flatMap.mp hid
  obtain ⟨e', he', -, hsuffix⟩ := exists_of_mem_matchLevels he
  exact List.mem_flatMap.mpr ⟨e', he', hsuffix.subset hid⟩

theorem matchLevels_frame (levels : List ((_ : P) × PriceLevel P)) (s : MatchState P) {id : Str}
    (hid : id ∉ queuedIds levels) :
    (matchLevels levels s).2.orders.lookup id = s.orders.lookup id := by
  induction levels generalizing s with
  | nil => rfl
  | cons e levels ih =>
    rw [queuedIds_cons, List.mem_append, not_or] at hid
    rw [matchLevels]
    split_ifs
    · dsimp only
      split_ifs <;>
        exact (ih _ hid.2).trans ((matchQueue_walk _ _ s).frame hid.1)
    · rfl

/-- What stays in the queues keeps its flag. -/
theorem matchLevels_flag (levels : List ((_ : P) × PriceLevel P)) (s : MatchState P)
    (hnd : (queuedIds levels).Nodup) {id : Str} (hid : id ∈ queuedIds (matchLevels levels s).1) :
    ((matchLevels levels s).2.orders.lookup id).map Order.isCancelled =
      (s.orders.lookup id).map Order.isCancelled := by
  induction levels generalizing s with
  | nil => exact absurd hid List.not_mem_nil
  | cons e levels ih =>
    obtain ⟨hnd₁, hnd₂, hdisj⟩ := nodup_queuedIds_cons.mp hnd
    have hwalk := matchQueue_walk e.2.orders e.2.totalQuantity s
    set s₁ := (matchQueue e.2.orders e.2.totalQuantity s).2.2
    -- An order of a level behind this one: this level does not touch it.
    have hbehind (h : id ∈ queuedIds (matchLevels levels s₁).1) :
        ((matchLevels levels s₁).2.orders.lookup id).map Order.isCancelled =
          (s.orders.lookup id).map Order.isCancelled := by
      have hout : id ∉ e.2.orders := fun hin => hdisj hin (queuedIds_matchLevels_subset _ _ h)
      rw [ih s₁ hnd₂ h, hwalk.frame hout]
    -- An order of this level: the levels behind do not touch it.
    have hhere (h : id ∈ (matchQueue e.2.orders e.2.totalQuantity s).1) :
        ((matchLevels levels s₁).2.orders.lookup id).map Order.isCancelled =
          (s.orders.lookup id).map Order.isCancelled := by
      have hout : id ∉ queuedIds levels := fun hin => hdisj (hwalk.suffix.subset h) hin
      rw [matchLevels_frame levels s₁ hout, hwalk.flag hnd₁ h]
    rw [matchLevels] at hid ⊢
    split_ifs at hid ⊢ with hrem
    · dsimp only at hid ⊢
      split_ifs at hid ⊢ with hnil
      · exact hbehind hid
      · rcases List.mem_append.mp hid with hid | hid
        · exact hhere hid
        · exact hbehind hid
    · rfl

/-- A market order settles the ledger, starting without fills. -/
theorem OrderBook.matchMarketOrder_settles [LinearOrder P] {b : OrderBook P} (hk : Keyed b.orders)
    (hp : Positive b.orders) (side : Side) (q : ℤ) :
    ∃ rest, (⟨b.orders, q, []⟩ : MatchState P).Settles
      ⟨(b.matchMarketOrder side q).1.orders, rest, (b.matchMarketOrder side q).2⟩ := by
  rw [OrderBook.matchMarketOrder]
  split_ifs
  · exact ⟨_, matchLevels_settles b.asks.entries hk hp⟩
  · exact ⟨_, matchLevels_settles b.bids.entries hk hp⟩

end Convergence
