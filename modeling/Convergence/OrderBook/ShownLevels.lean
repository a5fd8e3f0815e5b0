import Convergence.OrderBook.Removal

/-!
# Levels that show their queues

A level shows its queue when it exists as long as an order is queued and its total is the sum of
what remains of the orders in the queue. Placing and cancelling orders keeps this, whatever the
orders are. The matching loops skip an order that is flagged while it is queued, and leave its
quantity in the total; where no order enters with its flag set, nothing that is queued is flagged,
and they keep the totals too, also of orders of which nothing remains.

## Main definitions

* `OrderBook.Shown`, `OrderBook.Clear`.
* `unflaggedSystem`: the runs of a book whose orders enter without a flag.

## Main results

* `Represents.matchSide_of_live`: matching queues of orders that are not flagged.
* `OrderBook.clear_of_reachable`.
-/

namespace Convergence

open TransitionSystem

variable {P : Type*}

/-! ### One side -/

section Side

variable [DecidableEq P] {r : P → P → Prop} {orders : OrderTable P}
  {levels : SortedMap r (PriceLevel P)}

/-- The levels show their own queues if each of them does. -/
theorem represents_queueAt_iff [Std.Irrefl r] : Represents orders levels (queueAt levels) ↔
    ∀ e ∈ levels.entries, levelOf orders e.1 e.2.orders = some e.2 := by
  constructor
  · intro h e he
    rw [← queueAt_of_mem he, ← h e.1]
    exact SortedMap.find?_eq_some_iff.mpr he
  · intro h p
    cases hfind : levels.find? p with
    | none =>
      rw [queueAt, hfind]
      rfl
    | some level =>
      rw [queueAt, hfind]
      exact (h _ (SortedMap.find?_eq_some_iff.mp hfind)).symm

end Side

/-- The matching loops leave levels that show their queues. -/
theorem levelOf_of_mem_matchLevels (levels : List ((_ : P) × PriceLevel P)) (s : MatchState P)
    (hnd : (queuedIds levels).Nodup) (hlive : ∀ id ∈ queuedIds levels, IsLiveAt s.orders id)
    (hshown : ∀ e ∈ levels, levelOf s.orders e.1 e.2.orders = some e.2) :
    ∀ e ∈ (matchLevels levels s).1,
      levelOf (matchLevels levels s).2.orders e.1 e.2.orders = some e.2 := by
  induction levels generalizing s with
  | nil => exact fun e he => absurd he List.not_mem_nil
  | cons x levels ih =>
    obtain ⟨hnd₁, hnd₂, hdisj⟩ := nodup_queuedIds_cons.mp hnd
    obtain ⟨hlive₁, hlive₂⟩ := forall_mem_queuedIds_cons.mp hlive
    have hwalk := matchQueue_walk x.2.orders x.2.totalQuantity s
    have htotal := matchQueue_total x.2.orders x.2.totalQuantity s hnd₁ hlive₁
    set s₁ := (matchQueue x.2.orders x.2.totalQuantity s).2.2
    -- This level does not touch the orders of the levels behind it, nor they those of this level.
    have hbehind (id : Str) (hid : id ∈ queuedIds levels) :
        s₁.orders.lookup id = s.orders.lookup id := hwalk.frame fun h => hdisj h hid
    have hhere (id : Str) (hid : id ∈ (matchQueue x.2.orders x.2.totalQuantity s).1) :
        (matchLevels levels s₁).2.orders.lookup id = s₁.orders.lookup id :=
      matchLevels_frame levels s₁ (hdisj (hwalk.suffix.subset hid))
    have hrest := ih s₁ hnd₂ (fun id hid => .congr (hbehind id hid) (hlive₂ id hid))
      fun e he => by
        rw [levelOf_congr fun id hid => hbehind id (List.mem_flatMap.mpr ⟨e, he, hid⟩)]
        exact hshown e (List.mem_cons_of_mem _ he)
    intro e he
    rw [matchLevels] at he ⊢
    split_ifs at he ⊢ with hrem
    · dsimp only at he ⊢
      split_ifs at he ⊢ with hnil
      · exact hrest e he
      · rcases List.mem_cons.mp he with rfl | he
        · have hx := hshown x List.mem_cons_self
          rw [levelOf] at hx
          split_ifs at hx
          have hprice := congrArg PriceLevel.price (Option.some.inj hx)
          have hsum := congrArg PriceLevel.totalQuantity (Option.some.inj hx)
          dsimp only at hprice hsum
          rw [hsum, sub_self, zero_add] at htotal
          rw [levelOf_congr hhere, levelOf, if_neg hnil, htotal, hprice]
        · exact hrest e he
    · exact hshown e he

/-- Matching keeps the levels showing their queues, where nothing that is queued is flagged. -/
theorem Represents.matchSide_of_live [DecidableEq P] {r : P → P → Prop} [Std.Irrefl r]
    {levels : SortedMap r (PriceLevel P)} {s : MatchState P}
    (h : Represents s.orders levels (queueAt levels)) (hnd : (queuedIds levels.entries).Nodup)
    (hlive : ∀ id ∈ queuedIds levels.entries, IsLiveAt s.orders id) :
    Represents (Convergence.matchSide levels s).2.orders (Convergence.matchSide levels s).1
      (queueAt (Convergence.matchSide levels s).1) :=
  represents_queueAt_iff.mpr
    (levelOf_of_mem_matchLevels levels.entries s hnd hlive (represents_queueAt_iff.mp h))

/-! ### One book -/

namespace OrderBook

variable [LinearOrder P] {b b' : OrderBook P} {fills : List (Fill P)} {o : Order P} {id : Str}

/-- Orders are lodged, and a level exists where orders are queued and shows the sum of what remains
of them. -/
structure Shown (b : OrderBook P) : Prop extends b.Lodged where
  bids_represent : Represents b.orders b.bids (queueAt b.bids)
  asks_represent : Represents b.orders b.asks (queueAt b.asks)

theorem Shown.new : (OrderBook.new : OrderBook P).Shown where
  toLodged := .new
  bids_represent := .empty
  asks_represent := .empty

namespace Shown

theorem place (hb : b.Shown) (hid : ¬ b.Queued o.orderId) : (b.place o).Shown := by
  have hbids (p : P) := (notMem_of_not_queued hid p).1
  have hasks (p : P) := (notMem_of_not_queued hid p).2
  have hframe {q : P → List Str} (hq : ∀ p, o.orderId ∉ q p) (p : P) (a : Str) (ha : a ∈ q p) :
      (b.orders.insert o.orderId o).lookup a = b.orders.lookup a :=
    AList.lookup_insert_ne fun heq => hq p (heq ▸ ha)
  have hlodged := hb.toLodged.place hid
  rw [OrderBook.place] at hlodged ⊢
  split_ifs at hlodged ⊢
  · exact ⟨hlodged, (hb.bids_represent.push o hbids).self,
      hb.asks_represent.congr_orders (hframe hasks)⟩
  · exact ⟨hlodged, hb.bids_represent.congr_orders (hframe hbids),
      (hb.asks_represent.push o hasks).self⟩

theorem markCancelled (hb : b.Shown) (ho : b.orders.lookup id = some o)
    (hc : o.isCancelled = false) : (b.markCancelled id o).Shown := by
  have hrem := remainingOf_insert_flag ho
  have hlodged := hb.toLodged.markCancelled ho hc
  rw [OrderBook.markCancelled, removeOrderFromLevel] at hlodged ⊢
  split_ifs at hlodged ⊢ with hs
  · exact ⟨hlodged, ((hb.bids_represent.congr_remaining hrem).removeFromLevel
      (hb.bids.queued id o ho hc hs)).self, hb.asks_represent.congr_remaining hrem⟩
  · exact ⟨hlodged, hb.bids_represent.congr_remaining hrem,
      ((hb.asks_represent.congr_remaining hrem).removeFromLevel
        (hb.asks.queued id o ho hc hs)).self⟩

end Shown

/-- Levels show what is queued, and nothing that is queued is flagged. -/
structure Clear (b : OrderBook P) : Prop extends b.Shown where
  live : ∀ id, b.Queued id → IsLiveAt b.orders id

namespace Clear

theorem new : (OrderBook.new : OrderBook P).Clear where
  toShown := .new
  live id hq := by
    obtain ⟨p, hq | hq⟩ := hq
    · exact absurd hq List.not_mem_nil
    · exact absurd hq List.not_mem_nil

theorem live_bids (hb : b.Clear) (id : Str) (hid : id ∈ queuedIds b.bids.entries) :
    IsLiveAt b.orders id :=
  hb.live id ((mem_queuedIds_iff.mp hid).imp fun _ => Or.inl)

theorem live_asks (hb : b.Clear) (id : Str) (hid : id ∈ queuedIds b.asks.entries) :
    IsLiveAt b.orders id :=
  hb.live id ((mem_queuedIds_iff.mp hid).imp fun _ => Or.inr)

theorem shown_matchMarketOrder (hb : b.Clear) (side : Side) (q : ℤ) :
    (b.matchMarketOrder side q).1.Shown := by
  have hsides := disjoint_queuedIds hb.bids.toSideHoused hb.asks.toSideHoused
  have hlodged := hb.toLodged.matchMarketOrder side q
  rw [OrderBook.matchMarketOrder] at hlodged ⊢
  split_ifs at hlodged ⊢
  · refine ⟨hlodged, hb.bids_represent.congr_orders fun p id hid => ?_,
      Represents.matchSide_of_live (s := ⟨b.orders, q, []⟩) hb.asks_represent
        hb.asks.toSideHoused.nodup_queuedIds hb.live_asks⟩
    exact matchLevels_frame b.asks.entries ⟨b.orders, q, []⟩
      (hsides (mem_queuedIds_iff.mpr ⟨p, hid⟩))
  · refine ⟨hlodged, Represents.matchSide_of_live (s := ⟨b.orders, q, []⟩) hb.bids_represent
      hb.bids.toSideHoused.nodup_queuedIds hb.live_bids,
        hb.asks_represent.congr_orders fun p id hid => ?_⟩
    exact matchLevels_frame b.bids.entries ⟨b.orders, q, []⟩ fun hbid =>
      hsides hbid (mem_queuedIds_iff.mpr ⟨p, hid⟩)

end Clear

/-- Only an order that is placed comes into a queue. -/
theorem queued_of_queued_place (hq : (b.place o).Queued id) : id = o.orderId ∨ b.Queued id := by
  obtain ⟨p, hq⟩ := hq
  have hside {here : Prop} [Decidable here] {queue : List Str}
      (hin : id ∈ if here then queue ++ [o.orderId] else queue) : id = o.orderId ∨ id ∈ queue := by
    split_ifs at hin
    · exact (List.mem_append.mp hin).symm.imp_left List.mem_singleton.mp
    · exact Or.inr hin
  rw [queueAt_bids_place, queueAt_asks_place] at hq
  rcases hq with hq | hq
  · exact (hside hq).imp_right fun hin => ⟨p, Or.inl hin⟩
  · exact (hside hq).imp_right fun hin => ⟨p, Or.inr hin⟩

theorem Clear.place (hb : b.Clear) (hid : ¬ b.Queued o.orderId) (hc : o.isCancelled = false) :
    (b.place o).Clear := by
  refine ⟨hb.toShown.place hid, fun a hq => ?_⟩
  rw [orders_place]
  rcases queued_of_queued_place hq with rfl | hq
  · exact ⟨o, AList.lookup_insert _, hc⟩
  · exact .congr (AList.lookup_insert_ne fun heq => hid (heq ▸ hq)) (hb.live a hq)

/-- A change of a book in which only orders without a flag enter. -/
theorem Change.clear (h : b.Change (fun o => o.isCancelled = false) b' fills) (hb : b.Clear) :
    b'.Clear := by
  cases h with
  | same => exact hb
  | entered o hid ho => exact hb.place (hb.not_queued hid) ho
  | cancelled id o ho hc =>
    refine ⟨hb.toShown.markCancelled ho hc, fun a hq => ?_⟩
    have hne : a ≠ id := fun heq => not_queued_markCancelled hb.bids.toSideHoused
      hb.asks.toSideHoused ho (heq ▸ hq)
    have ha := (hb.toLodged.markCancelled ho hc).mem_of_queued hq
    rw [orders_markCancelled] at ha ⊢
    have ha := ((AList.mem_insert _).mp ha).resolve_left hne
    have hchange := Change.cancelled (E := fun o => o.isCancelled = false) id o ho hc
    exact .congr (AList.lookup_insert_ne hne) (hb.live a (hchange.queued ha hq))
  | matched side q =>
    refine ⟨hb.shown_matchMarketOrder side q, fun a hq => isLiveAt_iff.mpr ?_⟩
    have ha := ((b.matchMarketOrder_follows side q).mem a).mp
      ((hb.toLodged.matchMarketOrder side q).mem_of_queued hq)
    have hchange := Change.matched (E := fun o : Order P => o.isCancelled = false) (b := b) side q
    rw [flag_matchMarketOrder hb.bids.toSideHoused hb.asks.toSideHoused side q hq]
    exact isLiveAt_iff.mp (hb.live a (hchange.queued ha hq))

end OrderBook

/-! ### Runs -/

variable [LinearOrder P]

/-- Orders enter without a flag, and by `add_order` under an id that is not queued. -/
def BookOp.EntersUnflagged (b : OrderBook P) : BookOp P → Prop
  | addOrder o => ¬ b.Queued o.orderId ∧ o.isCancelled = false
  | insertReplicatedOrder o => o.isCancelled = false
  | _ => True

/-- The runs of one book from empty whose orders enter without a flag. -/
def unflaggedSystem (P : Type*) [LinearOrder P] : TransitionSystem (OrderBook P) (BookOp P) where
  init := OrderBook.new
  enabled := BookOp.EntersUnflagged
  step := BookOp.apply

theorem OrderBook.clear_of_reachable {b : OrderBook P} (h : (unflaggedSystem P).Reachable b) :
    b.Clear := by
  refine h.invariant .new fun s op _ hs hop => ?_
  have hchanged (hadd : ∀ o, op ≠ .addOrder o) : (op.apply s).Clear := by
    refine (change_apply_of op (fun o heq => absurd heq (hadd o)) fun o heq => ?_).clear hs
    subst heq
    exact hop
  cases op with
  | addOrder o => exact hs.place hop.1 hop.2
  | _ => exact hchanged fun o heq => by cases heq

end Convergence
