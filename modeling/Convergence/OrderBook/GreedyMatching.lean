import Convergence.OrderBook.Removal
import Convergence.Library.Greedy

/-!
# The matching loops are greedy

The matching loops walk levels, queues and totals and skip what is flagged. What they fill and what
they leave is what comes of serving the active orders greedily, in the order of the levels and of
the queues, with the quantity of the aggressor.

The loops of the model stop at an order that outlasts the aggressor without testing their condition
again. Written with every test, they come to the same end, after one turn more than there are orders
in a queue.

## Main definitions

* `liveOrders`: the orders that can be filled, in order.
* `matchQueueLoop`, `matchLevelsLoop`: the loops with every test.

## Main results

* `matchQueue_greedy`, `matchLevels_greedy`: the loops against `Greedy.serve` and `Greedy.leave`.
* `matchQueueLoop_eq`, `matchLevelsLoop_eq`: the loops end.
* `matchLevels_lookup_of_not_filled`: orders that no fill names.
-/

namespace Convergence

open Greedy

variable {P : Type*}

/-! ### The orders that can be filled -/

/-- The active orders among the ids, in the order of the ids. -/
def liveOrders (orders : OrderTable P) (ids : List Str) : List (Order P) :=
  (ids.filterMap orders.lookup).filter Order.isActive

/-- The fill of `n` of an order. -/
def Order.fill (o : Order P) (n : ℤ) : Fill P := ⟨o.orderId, o.price, n⟩

section LiveOrders

variable {orders orders' : OrderTable P} {id : Str} {ids : List Str} {o : Order P}

theorem Order.isActive_iff : o.isActive = true ↔ o.isCancelled = false ∧ 0 < o.remaining := by
  simp [isActive]

@[simp] theorem liveOrders_nil : liveOrders orders [] = [] := rfl

theorem liveOrders_append (ids ids' : List Str) :
    liveOrders orders (ids ++ ids') = liveOrders orders ids ++ liveOrders orders ids' := by
  rw [liveOrders, List.filterMap_append, List.filter_append]
  rfl

theorem liveOrders_cons_live (ho : orders.lookup id = some o) (h : o.isActive = true) :
    liveOrders orders (id :: ids) = o :: liveOrders orders ids := by
  rw [liveOrders, List.filterMap_cons_some (f := orders.lookup) ho, List.filter_cons_of_pos h]
  rfl

theorem liveOrders_cons_skip (h : ∀ o, orders.lookup id = some o → o.isCancelled = true) :
    liveOrders orders (id :: ids) = liveOrders orders ids := by
  cases ho : orders.lookup id with
  | none =>
    rw [liveOrders, List.filterMap_cons_none (f := orders.lookup) ho]
    rfl
  | some o =>
    have hc : ¬ o.isActive = true := by simp [Order.isActive, h o ho]
    rw [liveOrders, List.filterMap_cons_some (f := orders.lookup) ho, List.filter_cons_of_neg hc]
    rfl

theorem liveOrders_congr (h : ∀ id ∈ ids, orders'.lookup id = orders.lookup id) :
    liveOrders orders' ids = liveOrders orders ids := by
  rw [liveOrders, liveOrders, List.filterMap_congr h]

theorem mem_liveOrders :
    o ∈ liveOrders orders ids ↔ ∃ id ∈ ids, orders.lookup id = some o ∧ o.isActive = true := by
  simp only [liveOrders, List.mem_filter, List.mem_filterMap, ← and_assoc, exists_and_right]

end LiveOrders

/-! ### The loops against the reference -/

/-- **The inner loop serves a queue greedily.** -/
theorem matchQueue_greedy (queue : List Str) (total : ℤ) (s : MatchState P) (hnd : queue.Nodup)
    (hp : Positive s.orders) :
    (matchQueue queue total s).2.2.fills = s.fills ++
        (serve Order.remaining (liveOrders s.orders queue) s.remaining).map
          (fun x => x.1.fill x.2) ∧
      liveOrders (matchQueue queue total s).2.2.orders (matchQueue queue total s).1 =
        leave Order.remaining Order.lessBy (liveOrders s.orders queue) s.remaining ∧
      (matchQueue queue total s).2.2.remaining =
        s.remaining - served Order.remaining (liveOrders s.orders queue) s.remaining := by
  induction queue generalizing total s with
  | nil => simp [matchQueue, serve, leave, served]
  | cons id queue ih =>
    obtain ⟨hid, hnd⟩ := List.nodup_cons.mp hnd
    rcases le_or_gt s.remaining 0 with hrem | hrem
    · rw [matchQueue_cons_stop total hrem, serve_of_nonpos _ hrem, leave_of_nonpos _ hrem,
        served_of_nonpos _ hrem]
      simp
    by_cases hskip : ∀ o, s.orders.lookup id = some o → o.isCancelled = true
    · rw [matchQueue_cons_skip total hrem hskip, liveOrders_cons_skip hskip]
      exact ih total s hnd hp
    simp only [not_forall, Bool.not_eq_true] at hskip
    obtain ⟨o, ho, hc⟩ := hskip
    have hpos := (hp id o ho).2 hc
    have hframe (o' : Order P) : liveOrders (s.orders.insert id o') queue =
        liveOrders s.orders queue :=
      liveOrders_congr fun a ha => AList.lookup_insert_ne fun heq => hid (heq ▸ ha)
    rw [liveOrders_cons_live ho (Order.isActive_iff.mpr ⟨hc, hpos⟩)]
    rcases le_or_gt o.remaining s.remaining with hle | hlt
    · rw [matchQueue_cons_usedUp total hrem ho hc hle, serve_cons_whole hrem hle,
        leave_cons_whole hrem hle, served_cons_whole hrem hle]
      obtain ⟨hfills, hleft, hrest⟩ := ih (total - o.remaining)
        (s.record id o o.remaining o.usedUp) hnd
        (hp.insert id le_rfl fun h => absurd h (by simp [Order.usedUp]))
      rw [show (s.record id o o.remaining o.usedUp).orders = s.orders.insert id o.usedUp from rfl,
        hframe] at hfills hleft hrest
      refine ⟨?_, hleft, ?_⟩
      · rw [hfills]
        simp [MatchState.record, Order.fill]
      · rw [hrest]
        simp only [MatchState.record]
        omega
    · rw [matchQueue_cons_lessBy total hrem ho hc hlt, serve_cons_part hrem hlt,
        leave_cons_part hrem hlt, served_cons_part hrem hlt]
      have hactive : (o.lessBy s.remaining).isActive = true := by
        refine Order.isActive_iff.mpr ⟨hc, ?_⟩
        rw [Order.remaining_lessBy]
        omega
      refine ⟨by simp [MatchState.record, Order.fill], ?_, by simp [MatchState.record]⟩
      change liveOrders (s.orders.insert id (o.lessBy s.remaining)) (id :: queue) = _
      rw [liveOrders_cons_live (AList.lookup_insert _) hactive]
      exact congrArg _ (hframe _)

/-- **The outer loop serves the queues of the levels greedily**, one behind the other. -/
theorem matchLevels_greedy (levels : List ((_ : P) × PriceLevel P)) (s : MatchState P)
    (hnd : (queuedIds levels).Nodup) (hk : Keyed s.orders) (hp : Positive s.orders) :
    (matchLevels levels s).2.fills = s.fills ++
        (serve Order.remaining (liveOrders s.orders (queuedIds levels)) s.remaining).map
          (fun x => x.1.fill x.2) ∧
      liveOrders (matchLevels levels s).2.orders (queuedIds (matchLevels levels s).1) =
        leave Order.remaining Order.lessBy (liveOrders s.orders (queuedIds levels))
          s.remaining := by
  induction levels generalizing s with
  | nil => simp [matchLevels, queuedIds, serve, leave]
  | cons e levels ih =>
    rcases le_or_gt s.remaining 0 with hrem | hrem
    · rw [matchLevels, if_neg hrem.not_gt, serve_of_nonpos _ hrem, leave_of_nonpos _ hrem]
      simp
    rw [queuedIds_cons]
    obtain ⟨hnd₁, hnd₂, hdisj⟩ := nodup_queuedIds_cons.mp hnd
    have hwalk := matchQueue_walk e.2.orders e.2.totalQuantity s
    have hsettles := hwalk.settles hk hp
    obtain ⟨hfills, hleft, hrest⟩ := matchQueue_greedy e.2.orders e.2.totalQuantity s hnd₁ hp
    set queue' := (matchQueue e.2.orders e.2.totalQuantity s).1
    set s₁ := (matchQueue e.2.orders e.2.totalQuantity s).2.2 with hs₁
    obtain ⟨hfills', hleft'⟩ := ih s₁ hnd₂ hsettles.keyed hsettles.positive
    -- The levels behind do not share an order with this one.
    have hbehind : liveOrders s₁.orders (queuedIds levels) =
        liveOrders s.orders (queuedIds levels) :=
      liveOrders_congr fun id hid => hwalk.frame fun hin => hdisj hin hid
    have hhere : liveOrders (matchLevels levels s₁).2.orders queue' = liveOrders s₁.orders queue' :=
      liveOrders_congr fun id hid =>
        matchLevels_frame levels s₁ fun hin => hdisj (hwalk.suffix.subset hid) hin
    have hqueues : queuedIds (matchLevels (e :: levels) s).1 =
        queue' ++ queuedIds (matchLevels levels s₁).1 := by
      rw [matchLevels, if_pos hrem]
      dsimp only
      split_ifs with hnil
      · rw [show queue' = [] from hnil, List.nil_append]
      · rfl
    rw [snd_matchLevels_cons, if_pos hrem, ← hs₁, hqueues, liveOrders_append, liveOrders_append,
      serve_append, leave_append, hhere, hleft, hleft', hfills', hfills, hbehind, hrest]
    simp

/-! ### The loops with every test -/

/-- The inner loop, testing its condition before every turn, in at most `turns` tests. -/
def matchQueueLoop : ℕ → List Str → ℤ → MatchState P → Option (List Str × ℤ × MatchState P)
  | 0, _, _, _ => none
  | _ + 1, [], total, s => some ([], total, s)
  | turns + 1, id :: queue, total, s =>
    if 0 < s.remaining then
      match s.orders.lookup id with
      | none => matchQueueLoop turns queue total s
      | some order =>
        if order.isCancelled then matchQueueLoop turns queue total s
        else
          let fillQty := min s.remaining order.remaining
          let order' := { order with remaining := order.remaining - fillQty }
          let s' : MatchState P :=
            { orders := s.orders.insert id order'
              remaining := s.remaining - fillQty
              fills := s.fills ++ [⟨order.orderId, order.price, fillQty⟩] }
          if order'.remaining = 0 then
            matchQueueLoop turns queue (total - fillQty)
              { s' with orders := s.orders.insert id { order' with isCancelled := true } }
          else matchQueueLoop turns (id :: queue) (total - fillQty) s'
    else some (id :: queue, total, s)

/-- The outer loop around it. Every turn goes on to the next level. -/
def matchLevelsLoop (turns : ℕ) : List ((_ : P) × PriceLevel P) → MatchState P →
    Option (List ((_ : P) × PriceLevel P) × MatchState P)
  | [], s => some ([], s)
  | e :: levels, s =>
    if 0 < s.remaining then
      (matchQueueLoop turns e.2.orders e.2.totalQuantity s).bind fun (queue, total, s') =>
        (matchLevelsLoop turns levels s').map fun (levels', s'') =>
          if queue = [] then (levels', s'')
          else (⟨e.1, { e.2 with totalQuantity := total, orders := queue }⟩ :: levels', s'')
    else some (e :: levels, s)

theorem matchQueueLoop_of_nonpos {turns : ℕ} (hturns : 0 < turns) (queue : List Str) (total : ℤ)
    {s : MatchState P} (h : s.remaining ≤ 0) :
    matchQueueLoop turns queue total s = some (queue, total, s) := by
  obtain ⟨turns, rfl⟩ := Nat.exists_eq_succ_of_ne_zero hturns.ne'
  cases queue with
  | nil => rfl
  | cons id queue => rw [matchQueueLoop, if_neg h.not_gt]

/-- The inner loop ends after one test more than there are orders in the queue. -/
theorem matchQueueLoop_eq {turns : ℕ} {queue : List Str} (h : queue.length < turns) (total : ℤ)
    (s : MatchState P) : matchQueueLoop turns queue total s = some (matchQueue queue total s) := by
  induction queue generalizing turns total s with
  | nil =>
    obtain ⟨turns, rfl⟩ := Nat.exists_eq_succ_of_ne_zero (Nat.ne_of_gt h)
    rfl
  | cons id queue ih =>
    obtain ⟨turns, rfl⟩ := Nat.exists_eq_succ_of_ne_zero (Nat.ne_of_gt (Nat.zero_lt_of_lt h))
    have hturns : queue.length < turns := Nat.lt_of_succ_lt_succ h
    rw [matchQueueLoop, matchQueue]
    split_ifs with hrem
    · cases ho : s.orders.lookup id with
      | none => exact ih hturns total s
      | some o =>
        dsimp only
        split_ifs with hc hzero
        · exact ih hturns total s
        · exact ih hturns _ _
        · -- The order is not used up, so nothing remains of the aggressor.
          refine matchQueueLoop_of_nonpos (Nat.zero_lt_of_lt hturns) _ _ ?_
          dsimp only
          omega
    · rfl

theorem matchLevelsLoop_eq {turns : ℕ} {levels : List ((_ : P) × PriceLevel P)}
    (h : ∀ e ∈ levels, e.2.orders.length < turns) (s : MatchState P) :
    matchLevelsLoop turns levels s = some (matchLevels levels s) := by
  induction levels generalizing s with
  | nil => rfl
  | cons e levels ih =>
    rw [matchLevelsLoop, matchLevels]
    split_ifs
    · rw [matchQueueLoop_eq (h e List.mem_cons_self), Option.bind_some]
      dsimp only
      rw [ih fun e' he' => h e' (List.mem_cons_of_mem _ he'), Option.map_some]
    · rfl

/-! ### The side that a market order walks -/

section Side

variable [DecidableEq P] {r : P → P → Prop} {orders : OrderTable P}
  {levels : SortedMap r (PriceLevel P)} {own : Side → Prop}

/-- Orders of a level have its price. -/
theorem SideHoused.price_of_mem [Std.Irrefl r] (h : SideHoused orders levels own)
    {e : (_ : P) × PriceLevel P} (he : e ∈ levels.entries) {o : Order P}
    (ho : o ∈ liveOrders orders e.2.orders) : o.price = e.1 := by
  obtain ⟨id, hid, hlookup, -⟩ := mem_liveOrders.mp ho
  obtain ⟨x, hx, -, hp⟩ := h.located e.1 id (queueAt_of_mem he ▸ hid)
  obtain rfl := Option.some.inj (hx.symm.trans hlookup)
  exact hp

omit [DecidableEq P] in
theorem liveOrders_queuedIds (l : List ((_ : P) × PriceLevel P)) :
    liveOrders orders (queuedIds l) = l.flatMap fun e => liveOrders orders e.2.orders := by
  induction l with
  | nil => rfl
  | cons e l ih =>
    rw [List.flatMap_cons, ← ih]
    exact liveOrders_append _ _

/-- The orders of a side come in the order of their prices. -/
theorem SideHoused.pairwise_price [Std.Irrefl r] (h : SideHoused orders levels own) :
    (liveOrders orders (queuedIds levels.entries)).Pairwise
      fun o o' => o.price = o'.price ∨ r o.price o'.price := by
  rw [liveOrders_queuedIds, List.pairwise_flatMap]
  refine ⟨fun e he => List.pairwise_of_forall_mem_list fun o ho o' ho' => Or.inl ?_, ?_⟩
  · rw [h.price_of_mem he ho, h.price_of_mem he ho']
  · refine (List.pairwise_map.mp levels.sorted).imp_of_mem fun {e e'} he he' hr o ho o' ho' => ?_
    rw [h.price_of_mem he ho, h.price_of_mem he' ho']
    exact Or.inr hr

/-- Within a price they come in the order of the queue. -/
theorem SideHoused.filter_price [Std.Irrefl r] (h : SideHoused orders levels own) (p : P) :
    (liveOrders orders (queuedIds levels.entries)).filter (fun o => o.price = p) =
      liveOrders orders (queueAt levels p) := by
  have hgen (l : List ((_ : P) × PriceLevel P)) (hl : ∀ e ∈ l, e ∈ levels.entries)
      (hnd : l.NodupKeys) : (liveOrders orders (queuedIds l)).filter (fun o => o.price = p) =
        liveOrders orders (((l.dlookup p).map PriceLevel.orders).getD []) := by
    induction l with
    | nil => rfl
    | cons e l ih =>
      obtain ⟨he, hnd⟩ := List.nodupKeys_cons.mp hnd
      have hrest := ih (fun e' he' => hl e' (List.mem_cons_of_mem _ he')) hnd
      have hprice {o : Order P} (ho : o ∈ liveOrders orders e.2.orders) : o.price = e.1 :=
        h.price_of_mem (hl e List.mem_cons_self) ho
      rw [liveOrders_queuedIds] at hrest ⊢
      rw [List.flatMap_cons, List.filter_append, hrest, SortedMap.dlookup_cons]
      split_ifs with hp
      · subst hp
        rw [List.dlookup_eq_none.mpr he, Option.map_none, Option.getD_none, liveOrders_nil,
          List.append_nil, Option.map_some, Option.getD_some]
        exact List.filter_eq_self.mpr fun o ho => decide_eq_true (hprice ho)
      · rw [List.filter_eq_nil_iff.mpr fun o ho heq =>
          hp ((of_decide_eq_true heq).symm.trans (hprice ho)), List.nil_append]
  exact hgen levels.entries (fun _ he => he) levels.nodupKeys

theorem SideLodged.mem_liveOrders [Std.Irrefl r] (h : SideLodged orders levels own)
    (hk : Keyed orders) {o : Order P} : o ∈ liveOrders orders (queuedIds levels.entries) ↔
      orders.lookup o.orderId = some o ∧ o.isActive = true ∧ own o.side := by
  rw [Convergence.mem_liveOrders]
  constructor
  · rintro ⟨id, hid, ho, hact⟩
    obtain ⟨p, hp⟩ := mem_queuedIds_iff.mp hid
    obtain ⟨x, hx, hs, -⟩ := h.located p id hp
    obtain rfl := Option.some.inj (hx.symm.trans ho)
    exact ⟨(hk id x ho).symm ▸ ho, hact, hs⟩
  · rintro ⟨ho, hact, hs⟩
    exact ⟨o.orderId, mem_queuedIds_iff.mpr
      ⟨_, h.queued _ o ho (Order.isActive_iff.mp hact).1 hs⟩, ho, hact⟩

end Side

/-! ### Orders that no fill names -/

theorem QueueWalk.fills_grow {queue queue' : List Str} {s s' : MatchState P}
    (h : QueueWalk queue s queue' s') : s.fills <+: s'.fills := by
  induction h with
  | stop => exact List.prefix_rfl
  | skip _ _ _ ih => exact ih
  | usedUp _ _ _ _ _ ih => exact (List.prefix_append _ _).trans ih
  | lessBy => exact List.prefix_append _ _

/-- An order that no fill names is as it was. -/
theorem QueueWalk.lookup_of_not_filled {queue queue' : List Str} {s s' : MatchState P}
    (h : QueueWalk queue s queue' s') (hk : Keyed s.orders) {id : Str}
    (hid : ∀ f ∈ s'.fills, f.orderId ≠ id) : s'.orders.lookup id = s.orders.lookup id := by
  induction h with
  | stop => rfl
  | skip _ _ _ ih => exact ih hk hid
  | @usedUp a _ s _ _ o _ ho _ _ h ih =>
    have hfill : (⟨o.orderId, o.price, o.remaining⟩ : Fill P) ∈
        (s.record a o o.remaining o.usedUp).fills := List.mem_append_right _ List.mem_cons_self
    have hne : id ≠ a := fun heq =>
      hid _ (h.fills_grow.subset hfill) ((hk a o ho).trans heq.symm)
    rw [ih (keyed_insert hk (hk a o ho)) hid]
    exact AList.lookup_insert_ne hne
  | @lessBy a _ s o _ ho =>
    have hne : id ≠ a := fun heq =>
      hid ⟨o.orderId, o.price, s.remaining⟩ (List.mem_append_right _ List.mem_cons_self)
        ((hk a o ho).trans heq.symm)
    exact AList.lookup_insert_ne hne

theorem matchLevels_fills_grow (levels : List ((_ : P) × PriceLevel P)) (s : MatchState P) :
    s.fills <+: (matchLevels levels s).2.fills := by
  induction levels generalizing s with
  | nil => exact List.prefix_rfl
  | cons e levels ih =>
    rw [snd_matchLevels_cons]
    split_ifs
    · exact (matchQueue_walk e.2.orders e.2.totalQuantity s).fills_grow.trans (ih _)
    · exact List.prefix_rfl

theorem matchLevels_lookup_of_not_filled (levels : List ((_ : P) × PriceLevel P))
    (s : MatchState P) (hk : Keyed s.orders) {id : Str}
    (hid : ∀ f ∈ (matchLevels levels s).2.fills, f.orderId ≠ id) :
    (matchLevels levels s).2.orders.lookup id = s.orders.lookup id := by
  induction levels generalizing s with
  | nil => rfl
  | cons e levels ih =>
    rw [snd_matchLevels_cons] at hid ⊢
    split_ifs at hid ⊢
    · have hwalk := matchQueue_walk e.2.orders e.2.totalQuantity s
      rw [ih _ ((matchQueue_follows e.2.orders e.2.totalQuantity s).keyed hk) hid]
      exact hwalk.lookup_of_not_filled hk fun f hf =>
        hid f ((matchLevels_fills_grow levels _).subset hf)
    · rfl

/-- The ids of the live orders, in the order of the queue. -/
theorem map_orderId_liveOrders_sublist {orders : OrderTable P} (hk : Keyed orders)
    (ids : List Str) : ((liveOrders orders ids).map Order.orderId).Sublist ids := by
  induction ids with
  | nil => exact .refl []
  | cons id ids ih =>
    cases ho : orders.lookup id with
    | none =>
      rw [liveOrders_cons_skip fun o h => by rw [ho] at h; cases h]
      exact ih.cons id
    | some o =>
      cases hact : o.isActive with
      | true =>
        rw [liveOrders_cons_live ho hact, List.map_cons, hk id o ho]
        exact ih.cons_cons id
      | false =>
        rw [liveOrders, List.filterMap_cons_some (f := orders.lookup) ho,
          List.filter_cons_of_neg (Bool.eq_false_iff.mp hact)]
        exact ih.cons id

end Convergence
