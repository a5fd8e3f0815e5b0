import Convergence.Crdt.BookChange
import Convergence.Crdt.Cluster
import Convergence.Gossip.WirePrices

/-!
# Price levels across replicas

`ClientHandler::handle` accepts every positive price, and the wire carries whole ticks. The runs
here are those of replicas that serve clients and exchange operations through the codec, in exact
arithmetic: a remote operation is what a decoder makes of one in some log. Orders rest at the same
prices everywhere as long as clients keep to whole ticks; one other price is enough to break this.

## Main definitions

* `wireSystem`: the runs.
* `Added`: the orders of the additions in the logs.
* `PricesAgree`: the wire carries all prices, and replicas agree on who shares a level.

## Main results

* `PricesAgree.along_iff`: when replicas agree on prices.
-/

namespace Convergence

open TransitionSystem

/-- The order is the order of an addition in some log. -/
def Added (c : Str → CRDTOrderBook ℚ) (o : Order ℚ) : Prop :=
  ∃ n, ∃ a ∈ (c n).opLog, a.IsAdd ∧ a.order = o

/-- A client adds orders of a positive price and quantity under generated ids; a remote operation
has been read from the wire. -/
def WireEnabled (c : Str → CRDTOrderBook ℚ) (l : Str × Call ℚ) : Prop :=
  match l.2 with
  | .addOrder _ price quantity oid _ =>
    (∀ o, Added c o → o.orderId ≠ oid) ∧ 0 < price ∧ 0 < quantity
  | .applyRemote op => ∃ m, ∃ a ∈ (c m).opLog, a.overWire.Same op
  | _ => True

/-- The runs of replicas that exchange operations through the codec. -/
def wireSystem : TransitionSystem (Str → CRDTOrderBook ℚ) (Str × Call ℚ) where
  init := CRDTOrderBook.new
  enabled := WireEnabled
  step c l := Function.update c l.1 (l.2.run (c l.1))

theorem wireSystem_step_self (c : Str → CRDTOrderBook ℚ) (n : Str) (call : Call ℚ) :
    wireSystem.step c (n, call) n = call.run (c n) := Function.update_self ..

theorem wireSystem_step_of_ne (c : Str → CRDTOrderBook ℚ) {n m : Str} (call : Call ℚ)
    (h : m ≠ n) : wireSystem.step c (n, call) m = c m := Function.update_of_ne h ..

/-- Both orders rest at one level. -/
def OrderBook.SharesLevel (b : OrderBook ℚ) (id id' : Str) : Prop :=
  ∃ p, id ∈ queueAt b.bids p ∧ id' ∈ queueAt b.bids p ∨
    id ∈ queueAt b.asks p ∧ id' ∈ queueAt b.asks p

/-- The wire carries the prices of all orders, and two orders that rest on two replicas share a
level on both or on none. -/
structure PricesAgree (c : Str → CRDTOrderBook ℚ) : Prop where
  carried : ∀ o, Added c o → Carried o.price
  levels : ∀ n m id id', (c n).book.Queued id → (c n).book.Queued id' →
    (c m).book.Queued id → (c m).book.Queued id' →
    ((c n).book.SharesLevel id id' ↔ (c m).book.SharesLevel id id')

/-- The price of an addition is in whole ticks. -/
def Call.InTicks : Call ℚ → Prop
  | addOrder _ price _ _ _ => WholeTicks price
  | _ => True

/-- The orders in the books are those that have been added, in whole ticks. -/
structure Faithful (c : Str → CRDTOrderBook ℚ) : Prop where
  wellFormed : ∀ n, (c n).WellFormed
  inv : ∀ n, (c n).book.Inv
  housed : ∀ n, (c n).book.Housed
  isNew : ∀ o, Added c o → o.IsNew
  inTicks : ∀ o, Added c o → 0 < o.price ∧ WholeTicks o.price
  unique : ∀ o o', Added c o → Added c o' → o.orderId = o'.orderId → o = o'
  booked : ∀ n id o, (c n).book.orders.lookup id = some o →
    ∃ o₀, Added c o₀ ∧ o₀.orderId = id ∧ o.side = o₀.side ∧ o.price = o₀.price

namespace Faithful

variable {c : Str → CRDTOrderBook ℚ}

theorem init : Faithful CRDTOrderBook.new where
  wellFormed := .new
  inv _ := .new
  housed _ := .new
  isNew := fun _ ⟨_, _, ha, _⟩ => absurd ha List.not_mem_nil
  inTicks := fun _ ⟨_, _, ha, _⟩ => absurd ha List.not_mem_nil
  unique := fun _ _ ⟨_, _, ha, _⟩ => absurd ha List.not_mem_nil
  booked _ id _ ho := absurd (mem_of_lookup ho) (AList.notMem_empty id)

/-- An order that rests on a replica has been added. -/
theorem exists_added (h : Faithful c) {n : Str} {id : Str} (hq : (c n).book.Queued id) :
    ∃ o, Added c o ∧ o.orderId = id ∧ ∃ x, (c n).book.orders.lookup id = some x ∧
      x.isCancelled = false ∧ x.side = o.side ∧ x.price = o.price := by
  obtain ⟨p, hbid | hask⟩ := hq
  · obtain ⟨x, hx, hc, -⟩ := ((h.inv n).bids.mem_iff p id).mp hbid
    obtain ⟨o, ho, hid, hside, hprice⟩ := h.booked n id x hx
    exact ⟨o, ho, hid, x, hx, hc, hside, hprice⟩
  · obtain ⟨x, hx, hc, -⟩ := ((h.inv n).asks.mem_iff p id).mp hask
    obtain ⟨o, ho, hid, hside, hprice⟩ := h.booked n id x hx
    exact ⟨o, ho, hid, x, hx, hc, hside, hprice⟩

/-- Where an order rests is decided by what has been added. -/
theorem queueAt_iff (h : Faithful c) {n : Str} {o : Order ℚ} (ho : Added c o)
    (hq : (c n).book.Queued o.orderId) (p : ℚ) :
    (o.orderId ∈ queueAt (c n).book.bids p ↔ IsBid o.side ∧ o.price = p) ∧
      (o.orderId ∈ queueAt (c n).book.asks p ↔ IsAsk o.side ∧ o.price = p) := by
  obtain ⟨o', ho', hid, x, hx, hc, hside, hprice⟩ := h.exists_added hq
  obtain rfl := h.unique o' o ho' ho hid
  rw [(h.inv n).bids.mem_iff, (h.inv n).asks.mem_iff, ← hside, ← hprice]
  simp only [hx, Option.some.injEq, exists_eq_left', hc, true_and, and_self]

theorem sharesLevel_iff (h : Faithful c) {n : Str} {o o' : Order ℚ} (ho : Added c o)
    (ho' : Added c o') (hq : (c n).book.Queued o.orderId) (hq' : (c n).book.Queued o'.orderId) :
    (c n).book.SharesLevel o.orderId o'.orderId ↔
      o.price = o'.price ∧ (IsBid o.side ∧ IsBid o'.side ∨ IsAsk o.side ∧ IsAsk o'.side) := by
  simp only [OrderBook.SharesLevel, (h.queueAt_iff ho hq _).1, (h.queueAt_iff ho hq _).2,
    (h.queueAt_iff ho' hq' _).1, (h.queueAt_iff ho' hq' _).2]
  constructor
  · rintro ⟨p, ⟨⟨hs, hp⟩, hs', hp'⟩ | ⟨⟨hs, hp⟩, hs', hp'⟩⟩
    · exact ⟨hp.trans hp'.symm, Or.inl ⟨hs, hs'⟩⟩
    · exact ⟨hp.trans hp'.symm, Or.inr ⟨hs, hs'⟩⟩
  · rintro ⟨hprice, ⟨hs, hs'⟩ | ⟨hs, hs'⟩⟩
    · exact ⟨o.price, Or.inl ⟨⟨hs, rfl⟩, hs', hprice.symm⟩⟩
    · exact ⟨o.price, Or.inr ⟨⟨hs, rfl⟩, hs', hprice.symm⟩⟩

theorem pricesAgree (h : Faithful c) : PricesAgree c where
  carried o ho := by
    obtain ⟨hpos, hticks⟩ := h.inTicks o ho
    exact (carried_iff hpos).mpr hticks
  levels n m id id' hn hn' hm hm' := by
    obtain ⟨o, ho, rfl, -⟩ := h.exists_added hn
    obtain ⟨o', ho', rfl, -⟩ := h.exists_added hn'
    rw [h.sharesLevel_iff ho ho' hn hn', h.sharesLevel_iff ho ho' hm hm']

end Faithful

/-! ### Steps -/

/-- What a call adds to the log. -/
theorem CRDTOrderBook.WellFormed.opLog_run {r : CRDTOrderBook ℚ} (h : r.WellFormed)
    (call : Call ℚ) : (call.run r).opLog = r.opLog ∨
      ∃ op, (call.Issues r op ∨ call = .applyRemote op) ∧
        (call.run r).opLog = r.opLog ++ [op] := by
  have hnext := h.next call
  generalize call.run r = r' at hnext
  cases hnext with
  | same => exact Or.inl rfl
  | ticked => exact Or.inl rfl
  | issued _ _ op hop => exact Or.inr ⟨op, Or.inl hop, rfl⟩
  | applied op hseen =>
    exact Or.inr ⟨op, Or.inr rfl, CRDTOrderBook.opLog_applyRemoteOperation hseen⟩

section Step

variable {c : Str → CRDTOrderBook ℚ} {l : Str × Call ℚ}

/-- The order that the call adds. -/
def Call.newOrder? (r : CRDTOrderBook ℚ) : Call ℚ → Option (Order ℚ)
  | addOrder side price quantity oid _ => some (r.newOrder side price quantity oid)
  | _ => none

/-- In whole ticks, a decoded operation carries an order that has been added. -/
theorem Faithful.added_of_same (h : Faithful c) {m : Str} {a op : Operation ℚ}
    (ha : a ∈ (c m).opLog) (hsame : a.overWire.Same op) (hadd : op.IsAdd) : Added c op.order := by
  have haadd : a.IsAdd := hsame.type.trans hadd
  have hadded : Added c a.order := ⟨m, a, ha, haadd, rfl⟩
  obtain ⟨hpos, hticks⟩ := h.inTicks a.order hadded
  have horder : a.overWire.order = a.order := by
    rw [Operation.overWire, wirePrice_eq_self hpos hticks]
  rw [← hsame.order, horder]
  exact hadded

/-- A step adds the order of its call, if any, and no other. -/
theorem Faithful.added_step_iff (h : Faithful c) (hl : WireEnabled c l) {o : Order ℚ} :
    Added (wireSystem.step c l) o ↔ Added c o ∨ l.2.newOrder? (c l.1) = some o := by
  obtain ⟨n, call⟩ := l
  have hlog := (h.wellFormed n).opLog_run call
  constructor
  · rintro ⟨m, a, ha, hadd, rfl⟩
    by_cases hm : m = n
    · subst hm
      rw [wireSystem_step_self] at ha
      obtain heq | ⟨op, hop, heq⟩ := hlog
      · exact Or.inl ⟨m, a, heq ▸ ha, hadd, rfl⟩
      rw [heq] at ha
      rcases List.mem_append.mp ha with ha | ha
      · exact Or.inl ⟨m, a, ha, hadd, rfl⟩
      obtain rfl := List.mem_singleton.mp ha
      rcases hop with hop | rfl
      · obtain ⟨_, _, _, _, _, rfl, rfl⟩ | ⟨_, _, _, -, rfl⟩ := hop.cases
        · exact Or.inr rfl
        · exact absurd hadd (Operation.IsCancel.not_isAdd rfl)
      · obtain ⟨m', a', ha', hsame⟩ := hl
        exact Or.inl (h.added_of_same ha' hsame hadd)
    · rw [wireSystem_step_of_ne c call hm] at ha
      exact Or.inl ⟨m, a, ha, hadd, rfl⟩
  · rintro (⟨m, a, ha, hadd, rfl⟩ | hnew)
    · refine ⟨m, a, ?_, hadd, rfl⟩
      by_cases hm : m = n
      · subst hm
        rw [wireSystem_step_self]
        obtain heq | ⟨op, -, heq⟩ := hlog
        · exact heq ▸ ha
        · exact heq ▸ List.mem_append_left _ ha
      · rwa [wireSystem_step_of_ne c call hm]
    · cases call with
      | addOrder side price q oid opId =>
        obtain rfl := Option.some.inj hnew
        refine ⟨n, ((c n).ticked (c n).book).addOperation ((c n).newOrder side price q oid) opId,
          ?_, rfl, rfl⟩
        rw [wireSystem_step_self]
        exact List.mem_append_right _ (List.mem_singleton_self _)
      | cancelOrder => cases hnew
      | marketOrder => cases hnew
      | applyRemote => cases hnew

/-- The book of the replica that is called. -/
theorem Faithful.change_run (h : Faithful c) (hl : WireEnabled c l) :
    ∃ fills, (c l.1).book.Change (fun o => o.IsNew ∧ Added (wireSystem.step c l) o)
      (l.2.run (c l.1)).book fills := by
  obtain ⟨n, call⟩ := l
  refine (h.wellFormed n).change_run ?_
  cases call with
  | addOrder side price q oid opId =>
    have hnew : Added (wireSystem.step c (n, .addOrder side price q oid opId))
        ((c n).newOrder side price q oid) := (h.added_step_iff hl).mpr (Or.inr rfl)
    refine ⟨fun hmem => ?_, ⟨rfl, hl.2.2, rfl⟩, hnew⟩
    obtain ⟨a, ha, hadd, hid⟩ := (h.wellFormed n).added oid hmem
    exact hl.1 a.order ⟨n, a, ha, hadd, rfl⟩ hid
  | cancelOrder => trivial
  | marketOrder => trivial
  | applyRemote op =>
    intro _ hadd _
    have hadded : Added c op.order := by
      obtain ⟨m, a, ha, hsame⟩ := hl
      exact h.added_of_same ha hsame hadd
    exact ⟨h.isNew _ hadded, (h.added_step_iff hl).mpr (Or.inl hadded)⟩

/-- What a call adds is new, under an id that nothing else has been added under. -/
theorem WireEnabled.of_newOrder (hl : WireEnabled c l) (hticks : l.2.InTicks) {o : Order ℚ}
    (ho : l.2.newOrder? (c l.1) = some o) :
    o.IsNew ∧ (0 < o.price ∧ WholeTicks o.price) ∧ ∀ o', Added c o' → o'.orderId ≠ o.orderId := by
  obtain ⟨n, call⟩ := l
  cases call with
  | addOrder side price q oid opId =>
    obtain rfl := Option.some.inj ho
    exact ⟨⟨rfl, hl.2.2, rfl⟩, ⟨hl.2.1, hticks⟩, hl.1⟩
  | cancelOrder => cases ho
  | marketOrder => cases ho
  | applyRemote => cases ho

/-- What is in a book has been added. -/
theorem Faithful.booked_step (h : Faithful c) (hl : WireEnabled c l) (m : Str) (id : Str)
    (x : Order ℚ) (hx : (wireSystem.step c l m).book.orders.lookup id = some x) :
    ∃ o₀, Added (wireSystem.step c l) o₀ ∧ o₀.orderId = id ∧ x.side = o₀.side ∧
      x.price = o₀.price := by
  have hold {m : Str} {y : Order ℚ} (hy : (c m).book.orders.lookup id = some y) :
      ∃ o₀, Added (wireSystem.step c l) o₀ ∧ o₀.orderId = id ∧ y.side = o₀.side ∧
        y.price = o₀.price := by
    obtain ⟨o₀, ho₀, hrest⟩ := h.booked m id y hy
    exact ⟨o₀, (h.added_step_iff hl).mpr (Or.inl ho₀), hrest⟩
  obtain ⟨fills, hchange⟩ := h.change_run hl
  obtain ⟨n, call⟩ := l
  by_cases hm : m = n
  · subst hm
    rw [wireSystem_step_self] at hx
    have hkeyed := (h.housed m).keyed
    have hpositive := (h.housed m).positive
    rcases hchange.mem_orders hkeyed hpositive hx with hmem | ⟨-, -, ho⟩
    · obtain ⟨y, hy⟩ := exists_lookup hmem
      obtain ⟨x', hx', hage⟩ := hchange.ages hkeyed hpositive id y hy
      obtain rfl := Option.some.inj (hx'.symm.trans hx)
      rw [hage.side, hage.price]
      exact hold hy
    · exact ⟨x, ho, ((h.wellFormed m).run call).keyed id x hx, rfl, rfl⟩
  · rw [wireSystem_step_of_ne c call hm] at hx
    exact hold hx

/-- In whole ticks everything stays as it is meant to be. -/
theorem Faithful.step (h : Faithful c) (hl : WireEnabled c l) (hticks : l.2.InTicks) :
    Faithful (wireSystem.step c l) := by
  have hadded {o : Order ℚ} := h.added_step_iff hl (o := o)
  have hnew {o : Order ℚ} := hl.of_newOrder hticks (o := o)
  have hbooked := h.booked_step hl
  obtain ⟨fills, hchange⟩ := h.change_run hl
  have hentering (o : Order ℚ) (ho : o.IsNew ∧ Added (wireSystem.step c l) o) :
      o.isCancelled = false ∧ 0 < o.remaining := ⟨ho.1.2.2, ho.1.1 ▸ ho.1.2.1⟩
  have hinv := hchange.inv hentering (h.inv l.1)
  have hhoused := hchange.housed (fun o ho => (hentering o ho).2) (h.housed l.1)
  obtain ⟨n, call⟩ := l
  refine
    { wellFormed := ?_
      inv := ?_
      housed := ?_
      isNew := fun o ho => (hadded.mp ho).elim (h.isNew o) fun ho => (hnew ho).1
      inTicks := fun o ho => (hadded.mp ho).elim (h.inTicks o) fun ho => (hnew ho).2.1
      unique := fun o o' ho ho' hid => ?_
      booked := hbooked }
  · exact (Function.forall_update_iff _ fun _ => CRDTOrderBook.WellFormed).mpr
      ⟨(h.wellFormed n).run call, fun m _ => h.wellFormed m⟩
  · exact (Function.forall_update_iff _ fun _ r => (CRDTOrderBook.book r).Inv).mpr
      ⟨hinv, fun m _ => h.inv m⟩
  · exact (Function.forall_update_iff _ fun _ r => (CRDTOrderBook.book r).Housed).mpr
      ⟨hhoused, fun m _ => h.housed m⟩
  · rcases hadded.mp ho with hold | hfresh <;> rcases hadded.mp ho' with hold' | hfresh'
    · exact h.unique o o' hold hold' hid
    · exact absurd hid ((hnew hfresh').2.2 o hold)
    · exact absurd hid.symm ((hnew hfresh).2.2 o' hold')
    · exact Option.some.inj (hfresh.symm.trans hfresh')

end Step

/-- **Price levels.** In every state of a run, the wire carries the price of every order that has
been added, and replicas agree on which orders share a level, if and only if all orders have been
added in whole ticks. -/
theorem PricesAgree.along_iff {ls : List (Str × Call ℚ)}
    (h : wireSystem.Enables CRDTOrderBook.new ls) :
    wireSystem.Along PricesAgree CRDTOrderBook.new ls ↔
      wireSystem.Guarded (fun _ l => l.2.InTicks) CRDTOrderBook.new ls := by
  refine along_iff_guarded (fun _ => Faithful.pricesAgree) (fun _ _ hc hl => hc.step hl)
    (fun c l hc (hl : WireEnabled c l) hprice hagree => hprice ?_) Faithful.init h
  obtain ⟨n, call⟩ := l
  cases call with
  | addOrder side price q oid opId =>
    have hadded : Added (wireSystem.step c (n, .addOrder side price q oid opId))
        ((c n).newOrder side price q oid) := (hc.added_step_iff hl).mpr (Or.inr rfl)
    exact (carried_iff hl.2.1).mp (hagree.carried _ hadded)
  | cancelOrder => trivial
  | marketOrder => trivial
  | applyRemote => trivial

/-- The first operation of a node: a buy order of five. -/
def firstAdd (price : ℚ) : Operation ℚ :=
  let r : CRDTOrderBook ℚ := .new [65]
  (r.ticked r.book).addOperation (r.newOrder .buy price 5 [1]) [2]

/-- An order at 0.5 is added and sent to another node. -/
theorem PricesAgree.along_iff_half :
    wireSystem.Along PricesAgree CRDTOrderBook.new
      [([65], .addOrder .buy (1 / 2) 5 [1] [2]),
        ([66], .applyRemote (firstAdd (1 / 2)).overWire)] := by
  have hruns : wireSystem.Enables CRDTOrderBook.new
      [([65], .addOrder .buy (1 / 2) 5 [1] [2]),
        ([66], .applyRemote (firstAdd (1 / 2)).overWire)] := by
    have hnew : ∀ o, Added CRDTOrderBook.new o → o.orderId ≠ [1] :=
      fun o ⟨_, _, ha, _⟩ => absurd ha List.not_mem_nil
    have hread : (firstAdd (1 / 2)).overWire.Same (firstAdd (1 / 2)).overWire :=
      ⟨rfl, rfl, rfl, rfl, ⟨rfl, fun _ => rfl⟩, rfl⟩
    exact ⟨⟨hnew, by norm_num, by norm_num⟩,
      ⟨[65], firstAdd (1 / 2), List.mem_singleton_self _, hread⟩, trivial⟩
  exact (PricesAgree.along_iff hruns).mpr ⟨⟨5000, by norm_num, by norm_num⟩, trivial, trivial⟩

/-- A price of 0.00001 is written as zero. -/
theorem not_pricesAgree_along_tenth :
    ¬ wireSystem.Along PricesAgree CRDTOrderBook.new
      [([65], .addOrder .buy (1 / 100000) 5 [1] [2])] := by
  rintro ⟨-, hagree⟩
  have hadded : Added
      (wireSystem.step CRDTOrderBook.new ([65], .addOrder .buy (1 / 100000) 5 [1] [2]))
      (firstAdd (1 / 100000)).order :=
    ⟨[65], firstAdd (1 / 100000), List.mem_singleton_self _, rfl, rfl⟩
  have hcarried : Carried (1 / 100000) := hagree.carried _ hadded
  obtain ⟨k, hk, -⟩ := (carried_iff (by norm_num)).mp hcarried
  have hten : (1 : ℚ) = 10 * k := by
    rw [← hk]
    norm_num
  have hten : (1 : ℤ) = 10 * k := by exact_mod_cast hten
  omega

end Convergence
