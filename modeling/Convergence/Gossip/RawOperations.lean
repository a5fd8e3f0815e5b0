import Convergence.Crdt.BookChange
import Convergence.Gossip.RoundTrip
import Mathlib.Algebra.Order.BigOperators.Group.List

/-!
# Operations off the wire

A replica applies whatever operations the decoder returns: any 64-bit quantity and remaining
quantity, any side byte, either flag. `ClientHandler::handle` turns down quantities that are not
positive; nothing checks what comes from the network. What a client sees of the book stays sound
along a run exactly when every order that enters from the network is one that a client could have
placed and the market has partly filled.

## Main definitions

* `Operation.Decodable`: the decoder returns the operation for some datagram.
* `OrderBook.Sound`: queued orders, totals and fills are as a client expects.
* `openSystem`: runs of a replica among decodable operations and checked client commands.
* `Call.Vetted`: the condition on an order that enters from the network.

## Main results

* `CRDTOrderBook.RawInv.step`, `CRDTOrderBook.RawInv.not_sound_step`: what vetted calls keep, and
  what the others break.
* `CRDTOrderBook.sound_along_iff`.
-/

namespace Convergence

open TransitionSystem ByteReader

/-! ### Sound books -/

section Sound

variable {P : Type*}

/-- No order has more remaining than its quantity. -/
def Bounded (orders : OrderTable P) : Prop :=
  ∀ id o, orders.lookup id = some o → o.remaining ≤ o.quantity

private theorem total_of_sideInv [DecidableEq P] {r : P → P → Prop} {orders : OrderTable P}
    {levels : SortedMap r (PriceLevel P)} {own : Side → Prop} (h : SideInv orders levels own)
    (hpos : ∀ id o, orders.lookup id = some o → o.isCancelled = false → 0 < o.remaining) {p : P}
    {level : PriceLevel P} (hl : levels.find? p = some level) : 0 < level.totalQuantity ∧
      level.totalQuantity = totalRemaining orders (level.orders.filter (isActiveAt orders)) := by
  have hact := h.isActiveAt hpos p
  rw [h.represents p, levelOf] at hl
  split_ifs at hl with hq
  obtain rfl := Option.some.inj hl
  refine ⟨?_, by rw [List.filter_eq_self.mpr hact]⟩
  refine List.sum_pos _ (fun x hx => ?_) (by simpa using hq)
  obtain ⟨id, hid, rfl⟩ := List.mem_map.mp hx
  obtain ⟨o, ho, -, hr⟩ := isActiveAt_iff.mp (hact id hid)
  rwa [remainingOf_of_lookup ho]

/-- An active order with at most its quantity remaining, as a client places one and the market
leaves it. -/
def Order.Restable (o : Order P) : Prop :=
  o.isCancelled = false ∧ 0 < o.remaining ∧ o.remaining ≤ o.quantity

namespace OrderBook

variable [LinearOrder P] {b b' : OrderBook P} {fills : List (Fill P)}

/-- Queued orders are active with at most their quantity remaining, level totals are positive and
exact, and a market order gets positive fills of at most its own quantity. -/
structure Sound (b : OrderBook P) : Prop where
  queued : ∀ id, b.Queued id → ∃ o, b.orders.lookup id = some o ∧ o.Restable
  bid_total : ∀ p level, b.bids.find? p = some level → 0 < level.totalQuantity ∧
    level.totalQuantity = totalRemaining b.orders (level.orders.filter (isActiveAt b.orders))
  ask_total : ∀ p level, b.asks.find? p = some level → 0 < level.totalQuantity ∧
    level.totalQuantity = totalRemaining b.orders (level.orders.filter (isActiveAt b.orders))
  fills : ∀ side q, 0 ≤ q → (∀ f ∈ (b.matchMarketOrder side q).2, 0 < f.quantity) ∧
    ((b.matchMarketOrder side q).2.map Fill.quantity).sum ≤ q

theorem Change.bounded (h : b.Change Order.Restable b' fills) (hb : b.Housed)
    (hbound : Bounded b.orders) : Bounded b'.orders := by
  intro id o' ho'
  rcases h.mem_orders hb.keyed hb.positive ho' with hid | ⟨-, -, -, hle⟩
  · obtain ⟨o, ho⟩ := exists_lookup hid
    obtain ⟨x, hx, ha⟩ := h.ages hb.keyed hb.positive id o ho
    obtain rfl := Option.some.inj (hx.symm.trans ho')
    exact ha.remaining_le.trans ((hbound id o ho).trans_eq ha.quantity.symm)
  · exact hle

theorem Inv.queued_lookup (h : b.Inv) {id : Str} (hq : b.Queued id) :
    ∃ o, b.orders.lookup id = some o ∧ o.isCancelled = false := by
  obtain ⟨p, hq | hq⟩ := hq
  · obtain ⟨o, ho, hc, -⟩ := (h.bids.mem_iff p id).mp hq
    exact ⟨o, ho, hc⟩
  · obtain ⟨o, ho, hc, -⟩ := (h.asks.mem_iff p id).mp hq
    exact ⟨o, ho, hc⟩

theorem Inv.sound (h : b.Inv) (hb : b.Housed) (hbound : Bounded b.orders) : b.Sound where
  queued id hq := by
    obtain ⟨o, ho, hc⟩ := h.queued_lookup hq
    exact ⟨o, ho, hc, h.pos id o ho hc, hbound id o ho⟩
  bid_total _ _ := total_of_sideInv h.bids h.pos
  ask_total _ _ := total_of_sideInv h.asks h.pos
  fills side q hq := by
    obtain ⟨rest, hs⟩ := matchMarketOrder_settles hb.keyed hb.positive side q
    obtain ⟨new, hnew, hfill, hsum, -⟩ := hs.fills
    have hrest := hs.remaining hq
    rw [List.nil_append] at hnew
    refine ⟨fun f hf => (hfill f (hnew ▸ hf)).1, ?_⟩
    dsimp only at hnew hsum hrest
    rw [hnew, hsum]
    omega

/-- An order that is placed is queued. -/
theorem queued_place (b : OrderBook P) (o : Order P) : (b.place o).Queued o.orderId := by
  refine ⟨o.price, ?_⟩
  rw [queueAt_bids_place, queueAt_asks_place]
  by_cases hs : o.side = Side.buy
  · exact Or.inl (by simp [hs])
  · exact Or.inr (by simp [hs])

/-- An order that no client could have placed shows at once. -/
theorem not_sound_place {o : Order P} (ho : ¬ o.Restable) : ¬ (b.place o).Sound := by
  intro h
  obtain ⟨x, hx, hrest⟩ := h.queued o.orderId (b.queued_place o)
  rw [orders_place, AList.lookup_insert] at hx
  exact ho (Option.some.inj hx ▸ hrest)

end OrderBook

end Sound

/-! ### Runs among decodable operations -/

/-- The decoder returns the operation, in a message, for some datagram and whatever lies behind it
in memory. -/
def Operation.Decodable (rnd : ℚ → ℚ) (op : Operation ℚ) : Prop :=
  ∃ data beyond m, (Message.decode rnd data beyond).result = .ok m ∧ op ∈ m.operations

/-- Client commands are checked and get new ids; remote operations come off the wire. -/
def Call.Open (rnd : ℚ → ℚ) (r : CRDTOrderBook ℚ) : Call ℚ → Prop
  | addOrder _ _ quantity oid _ => oid ∉ r.book.orders ∧ 0 < quantity
  | marketOrder _ quantity _ => 0 < quantity
  | applyRemote op => op.Decodable rnd
  | cancelOrder .. => True

/-- The runs of a replica that is open to the network. -/
def openSystem (rnd : ℚ → ℚ) (n : Str) : TransitionSystem (CRDTOrderBook ℚ) (Call ℚ) where
  init := CRDTOrderBook.new n
  enabled r call := call.Open rnd r
  step r call := call.run r

/-- An order that enters the book from the network is one that could rest there. -/
def Call.Vetted (r : CRDTOrderBook ℚ) : Call ℚ → Prop
  | applyRemote op => op.opId ∉ r.seenOps → op.IsAdd → op.order.orderId ∉ r.book.orders →
    op.order.Restable
  | _ => True

namespace CRDTOrderBook

variable {r : CRDTOrderBook ℚ} {rnd : ℚ → ℚ}

/-- A vetted call changes the book as the book's own calls do. -/
theorem WellFormed.change (h : r.WellFormed) {call : Call ℚ} (hopen : call.Open rnd r)
    (hvet : call.Vetted r) : ∃ fills, r.book.Change Order.Restable (call.run r).book fills := by
  refine h.change_run ?_
  cases call with
  | addOrder => exact ⟨hopen.1, rfl, hopen.2, le_rfl⟩
  | cancelOrder => trivial
  | marketOrder => trivial
  | applyRemote => exact hvet

/-- The invariant of a replica whose calls are vetted. -/
structure RawInv (r : CRDTOrderBook ℚ) : Prop where
  wellFormed : r.WellFormed
  housed : r.book.Housed
  inv : r.book.Inv
  bounded : Bounded r.book.orders

namespace RawInv

theorem new (n : Str) : (CRDTOrderBook.new n : CRDTOrderBook ℚ).RawInv where
  wellFormed := .new n
  housed := .new
  inv := .new
  bounded id o ho := by simp [CRDTOrderBook.new, OrderBook.new] at ho

theorem step (h : r.RawInv) {call : Call ℚ} (hopen : call.Open rnd r) (hvet : call.Vetted r) :
    (call.run r).RawInv := by
  obtain ⟨fills, hchange⟩ := h.wellFormed.change hopen hvet
  exact
    { wellFormed := h.wellFormed.run call
      housed := hchange.housed (fun _ ho => ho.2.1) h.housed
      inv := hchange.inv (fun _ ho => ⟨ho.1, ho.2.1⟩) h.inv
      bounded := hchange.bounded h.housed h.bounded }

/-- A call that is not vetted queues an order that no client could have placed. -/
theorem not_sound_step {call : Call ℚ} (hvet : ¬ call.Vetted r) : ¬ (call.run r).book.Sound := by
  cases call with
  | applyRemote op =>
    simp only [Call.Vetted, not_forall] at hvet
    obtain ⟨hseen, ha, hid, hrest⟩ := hvet
    have hbook : ((Call.applyRemote op).run r).book = r.book.place op.order := by
      rw [Call.run, applyRemoteOperation, if_neg hseen]
      change r.book.applyOperation op = _
      rw [OrderBook.applyOperation_add r.book ha, OrderBook.insertReplicatedOrder, if_neg hid]
    rw [hbook]
    exact OrderBook.not_sound_place hrest
  | addOrder => exact absurd trivial hvet
  | cancelOrder => exact absurd trivial hvet
  | marketOrder => exact absurd trivial hvet

end RawInv

/-- **Decodable operations.** Along every run of a replica among decodable operations and client
commands, the book is sound in every state exactly when every order that entered from the network
was active, with a positive remaining quantity of at most its quantity. -/
theorem sound_along_iff (rnd : ℚ → ℚ) (n : Str) {calls : List (Call ℚ)}
    (h : (openSystem rnd n).Enables (openSystem rnd n).init calls) :
    (openSystem rnd n).Along (fun r => r.book.Sound) (openSystem rnd n).init calls ↔
      (openSystem rnd n).Guarded (fun r call => call.Vetted r) (openSystem rnd n).init calls :=
  along_iff_guarded (I := RawInv) (fun _ hr => hr.inv.sound hr.housed hr.bounded)
    (fun _ _ hr hopen hvet => hr.step hopen hvet) (fun _ _ _ _ hvet => RawInv.not_sound_step hvet)
    (.new n) h

end CRDTOrderBook

/-! ### An order with a negative remaining quantity -/

/-- A push of an ask for one share of which minus five remain. -/
def poisonedPush : Message where
  type := .gossipPush
  senderId := [65]
  senderClock := VectorClock.new [65]
  operations := [{
    type := .addOrder
    order := {
      orderId := [120]
      nodeId := [65]
      side := .sell
      price := 1
      quantity := 1
      remaining := -5
      timestamp := 1 }
    cancelOrderId := []
    originNode := [65]
    clock := VectorClock.new [65]
    opId := [65, 58, 49] }]

theorem encodable_poisonedPush : poisonedPush.Encodable := by
  have hclock : (VectorClock.new [65]).Encodable :=
    ⟨by decide, by decide, by decide, by decide, by decide⟩
  refine ⟨by decide, hclock, by decide, List.forall_mem_singleton.mpr ?_⟩
  exact ⟨⟨by decide, by decide, ⟨10000, by decide, by norm_num [poisonedPush]⟩, by decide,
    by decide, by decide⟩, by decide, by decide, hclock, by decide⟩

/-- The decoder returns what was encoded. -/
theorem decodable_poisonedPush : ∃ op : Operation ℚ, op.Decodable id ∧ op.IsAdd ∧
    op.order = ⟨[120], [65], .sell, 1, 1, -5, 1, false⟩ := by
  obtain ⟨m, ⟨-, -, -, hops⟩, hm, -⟩ := Message.decodes_deserialize encodable_poisonedPush
    (memory (poisonedPush.serialize id) fun _ => 0) 0 (bytesAt_memory ..) (Nat.zero_add _).le
  obtain ⟨op, _, hsame, -, hmem⟩ := List.forall₂_cons_left_iff.mp hops
  refine ⟨op, ⟨_, _, m, hm, hmem ▸ List.mem_cons_self⟩, ?_, ?_⟩
  · exact hsame.type.symm
  · exact hsame.order.symm

/-- A client adds an ask, and then the poisoned one comes in. -/
theorem CRDTOrderBook.sound_along_iff_poisoned : ∃ op : Operation ℚ, op.Decodable id ∧
    let calls := [.addOrder .sell 2 3 [97] [98], .applyRemote op]
    (openSystem id [80]).Along (fun r => r.book.Sound) (openSystem id [80]).init calls ↔
      (openSystem id [80]).Guarded (fun r call => call.Vetted r)
        (openSystem id [80]).init calls := by
  obtain ⟨op, hdec, -⟩ := decodable_poisonedPush
  have hclient : (Call.addOrder .sell 2 3 [97] [98]).Open id (CRDTOrderBook.new [80]) :=
    ⟨AList.notMem_empty _, by decide⟩
  exact ⟨op, hdec, sound_along_iff id [80] ⟨hclient, hdec, trivial⟩⟩

/-- A fresh replica that applies it has an order with a negative remaining quantity in its book. -/
theorem CRDTOrderBook.not_sound_of_decodable :
    ∃ calls, (openSystem id [80]).Enables (openSystem id [80]).init calls ∧
      ¬ (openSystem id [80]).Along (fun r => r.book.Sound) (openSystem id [80]).init calls := by
  obtain ⟨op, hdec, hadd, ho⟩ := decodable_poisonedPush
  refine ⟨[.applyRemote op], ⟨hdec, trivial⟩, fun h => ?_⟩
  refine RawInv.not_sound_step (fun hvet => ?_) h.2
  have hrest := hvet (Finset.notMem_empty _) hadd (AList.notMem_empty _)
  rw [ho] at hrest
  exact absurd hrest.2.1 (by decide)

end Convergence
