import Convergence.OrderBook.Invariant
import Convergence.Library.GroupedSums

/-!
# The book as a set of orders

What a book shows to a client is a function of the set of its active orders: on each side the
distinct prices, best first, each with the sum of what remains of the orders at that price. Two
books with the same active orders show the same, however their queues are arranged.

## Main definitions

* `PriceLevel.quote`, `OrderBook.activeOrders`, `bidQuotes`, `askQuotes`.

## Main results

* `OrderBook.Inv.bids_eq_bidQuotes`, `OrderBook.Inv.asks_eq_askQuotes`.
-/

namespace Convergence

variable {P : Type*}

/-- The price and the total quantity of a level. -/
def PriceLevel.quote (level : PriceLevel P) : P × ℤ := (level.price, level.totalQuantity)

section Quotes

variable [LinearOrder P]

/-- The bids of a set of orders, highest price first. -/
def bidQuotes (A : Finset (Order P)) : List (P × ℤ) :=
  groupedSums (· ≥ ·) Order.price Order.remaining {o ∈ A | IsBid o.side}

/-- The asks of a set of orders, lowest price first. -/
def askQuotes (A : Finset (Order P)) : List (P × ℤ) :=
  groupedSums (· ≤ ·) Order.price Order.remaining {o ∈ A | IsAsk o.side}

end Quotes

theorem mem_values_iff {orders : OrderTable P} (h : Keyed orders) {o : Order P} :
    o ∈ orders.entries.map Sigma.snd ↔ orders.lookup o.orderId = some o := by
  rw [List.mem_map]
  constructor
  · rintro ⟨⟨id, o⟩, he, rfl⟩
    have hlookup : orders.lookup id = some o := AList.mem_lookup_iff.mpr he
    rwa [h id o hlookup]
  · intro ho
    exact ⟨⟨o.orderId, o⟩, AList.mem_lookup_iff.mp ho, rfl⟩

theorem nodup_values {orders : OrderTable P} (h : Keyed orders) :
    (orders.entries.map Sigma.snd).Nodup := by
  refine List.pairwise_map.mpr ?_
  have hkeys := List.nodupKeys_iff_pairwise.mp orders.nodupKeys
  refine hkeys.imp_of_mem fun {e e'} he he' hne heq => ?_
  have hid := h e.1 e.2 (AList.mem_lookup_iff.mpr he)
  have hid' := h e'.1 e'.2 (AList.mem_lookup_iff.mpr he')
  exact hne (hid.symm.trans ((congrArg Order.orderId heq).trans hid'))

namespace SideInv

variable [DecidableEq P] {r : P → P → Prop} {orders : OrderTable P}
  {levels : SortedMap r (PriceLevel P)} {own : Side → Prop} {A : Finset (Order P)}

/-- The total of a queue, as a sum over the orders at its price. -/
theorem totalRemaining_queueAt [DecidablePred own] (h : SideInv orders levels own)
    (hk : Keyed orders) (hA : ∀ o, o ∈ A ↔ orders.lookup o.orderId = some o ∧ o.isCancelled = false)
    (p : P) : totalRemaining orders (queueAt levels p) =
      ∑ o ∈ {o ∈ A | own o.side} with o.price = p, o.remaining := by
  rw [totalRemaining, ← List.sum_toFinset _ (h.nodup p)]
  refine (Finset.sum_nbij Order.orderId ?_ ?_ ?_ ?_).symm
  · intro o ho
    simp only [Finset.mem_filter, hA] at ho
    obtain ⟨⟨⟨ho, hc⟩, hs⟩, rfl⟩ := ho
    exact List.mem_toFinset.mpr (h.mem_of_lookup ho hc hs)
  · intro o ho o' ho' hid
    simp only [Finset.coe_filter, Set.mem_ofPred_eq, Finset.mem_filter, hA] at ho ho'
    exact Option.some.inj (ho.1.1.1.symm.trans ((congrArg orders.lookup hid).trans ho'.1.1.1))
  · intro id hid
    obtain ⟨o, ho, hc, hs, hp⟩ := (h.mem_iff p id).mp (List.mem_toFinset.mp hid)
    obtain rfl := hk id o ho
    exact ⟨o, by simpa only [Finset.coe_filter, Set.mem_ofPred_eq, Finset.mem_filter, hA] using
      ⟨⟨⟨ho, hc⟩, hs⟩, hp⟩, rfl⟩
  · intro o ho
    simp only [Finset.mem_filter, hA] at ho
    exact (remainingOf_of_lookup ho.1.1.1).symm

/-- Levels are stored under their prices. -/
theorem map_price_entries [Std.Irrefl r] (h : SideInv orders levels own) :
    (levels.entries.map Sigma.snd).map PriceLevel.price = levels.entries.keys := by
  rw [List.map_map]
  exact List.map_congr_left fun e he => by rw [Function.comp_apply, (h.represents.of_mem he).1]

/-- The levels of a side stand in the order of its prices. -/
theorem sorted_prices [Std.Irrefl r] (h : SideInv orders levels own) :
    ((levels.entries.map Sigma.snd).map PriceLevel.price).Pairwise r := by
  rw [h.map_price_entries]
  exact levels.sorted

/-- A side of the book shows the sums by price of its orders. -/
theorem quotes_eq [DecidablePred own] [Std.Irrefl r] {le : P → P → Prop} [DecidableRel le]
    [IsTrans P le] [Std.Antisymm le] [Std.Total le] (h : SideInv orders levels own)
    (hk : Keyed orders) (hA : ∀ o, o ∈ A ↔ orders.lookup o.orderId = some o ∧ o.isCancelled = false)
    (hle : ∀ {a b}, r a b → le a b) :
    levels.entries.map (fun e => e.2.quote) =
      groupedSums le Order.price Order.remaining {o ∈ A | own o.side} := by
  have hkeys : (levels.entries.map fun e => e.2.quote).map Prod.fst = levels.entries.keys := by
    rw [← h.map_price_entries, List.map_map, List.map_map]
    rfl
  refine eq_groupedSums ?_ ?_ fun p t => ?_
  · rw [hkeys]
    exact levels.sorted.imp hle
  · rw [hkeys]
    exact levels.nodupKeys
  rw [← h.totalRemaining_queueAt hk hA p, List.mem_map]
  constructor
  · rintro ⟨e, he, heq⟩
    obtain ⟨hlevel, hne⟩ := h.represents.of_mem he
    rw [hlevel] at heq
    obtain ⟨rfl, rfl⟩ := Prod.mk.inj heq
    obtain ⟨id, hid⟩ := List.exists_mem_of_ne_nil _ hne
    obtain ⟨o, ho, hc, hs, hp⟩ := (h.mem_iff _ id).mp hid
    obtain rfl := hk id o ho
    exact ⟨⟨o, Finset.mem_filter.mpr ⟨(hA o).mpr ⟨ho, hc⟩, hs⟩, hp⟩, rfl⟩
  · rintro ⟨⟨o, ho, rfl⟩, rfl⟩
    obtain ⟨hoA, hs⟩ := Finset.mem_filter.mp ho
    obtain ⟨ho, hc⟩ := (hA o).mp hoA
    have hne := List.ne_nil_of_mem (h.mem_of_lookup ho hc hs)
    have hfind := h.represents o.price
    rw [levelOf, if_neg hne] at hfind
    exact ⟨_, SortedMap.find?_eq_some_iff.mp hfind, rfl⟩

end SideInv

namespace OrderBook

variable [LinearOrder P] {b : OrderBook P}

/-- The active orders of a book, as a set. -/
def activeOrders (b : OrderBook P) : Finset (Order P) := b.getAllOrders.toFinset

theorem nodup_getAllOrders (h : Keyed b.orders) : b.getAllOrders.Nodup :=
  (nodup_values h).filter _

theorem card_activeOrders (h : Keyed b.orders) : b.activeOrders.card = b.getAllOrders.length :=
  List.toFinset_card_of_nodup (nodup_getAllOrders h)

theorem mem_activeOrders (h : Keyed b.orders) {o : Order P} :
    o ∈ b.activeOrders ↔ b.orders.lookup o.orderId = some o ∧ o.isActive = true := by
  rw [activeOrders, List.mem_toFinset, getAllOrders, List.mem_filter, mem_values_iff h]

/-- In a consistent book, active means not cancelled. -/
theorem Inv.mem_activeOrders (h : b.Inv) {o : Order P} :
    o ∈ b.activeOrders ↔ b.orders.lookup o.orderId = some o ∧ o.isCancelled = false := by
  rw [OrderBook.mem_activeOrders h.keyed, Order.isActive]
  refine and_congr_right fun ho => ?_
  cases hc : o.isCancelled with
  | true => simp
  | false => simp [h.pos _ o ho hc]

/-- The bids a book shows. -/
theorem Inv.bids_eq_bidQuotes (h : b.Inv) :
    b.bids.entries.map (fun e => e.2.quote) = bidQuotes b.activeOrders :=
  h.bids.quotes_eq h.keyed (fun _ => h.mem_activeOrders) le_of_lt

/-- The asks a book shows. -/
theorem Inv.asks_eq_askQuotes (h : b.Inv) :
    b.asks.entries.map (fun e => e.2.quote) = askQuotes b.activeOrders :=
  h.asks.quotes_eq h.keyed (fun _ => h.mem_activeOrders) le_of_lt

/-- **A snapshot is a function of the set of active orders.** -/
theorem Inv.quotes_getSnapshot (h : b.Inv) (depth : ℤ) :
    (b.getSnapshot depth).bids.map PriceLevel.quote =
        (bidQuotes b.activeOrders).take depth.toNat ∧
      (b.getSnapshot depth).asks.map PriceLevel.quote =
        (askQuotes b.activeOrders).take depth.toNat := by
  rw [getSnapshot, List.map_take, List.map_take, List.map_map, List.map_map]
  exact ⟨congrArg _ h.bids_eq_bidQuotes, congrArg _ h.asks_eq_askQuotes⟩

end OrderBook

end Convergence
