import Convergence.Crdt.BookChange
import Convergence.Gossip.RoundTrip
import Convergence.OrderBook.Arithmetic

/-!
# The range of the level totals

Quantities and totals are `int64_t`, and the only check is that of `ClientHandler::handle` on the
quantity of one request. The runs here are those of one replica between its clients, who send
quantities from 1 to `2 ^ 63 - 1`, and the other nodes, whose operations bring in orders of such
quantities, together with the results of all additions and subtractions on totals and remaining
quantities. These stay in range exactly as long as each order that enters finds room at its price.

## Main definitions

* `Call.Accepted`: the calls that requests and operations lead to.
* `ledgerSystem`: the runs with the results.
* `CRDTOrderBook.ShowsSums`: the totals shown by `BOOK`.

## Main results

* `CRDTOrderBook.totals_along_iff`: when totals stay in range.
-/

namespace Convergence

open TransitionSystem

variable {P : Type*} [LinearOrder P]

/-- A client sends a quantity from 1 to `2 ^ 63 - 1`, and a generated order id is new to the
replica; another node sends new orders of such quantities. -/
def Call.Accepted (r : CRDTOrderBook P) : Call P → Prop
  | addOrder _ _ quantity oid _ => oid ∉ r.book.orders ∧ 0 < quantity ∧ quantity < 2 ^ 63
  | cancelOrder .. => True
  | marketOrder _ quantity _ => 0 < quantity ∧ quantity < 2 ^ 63
  | applyRemote op => op.IsAdd → op.order.IsNew ∧ op.order.quantity < 2 ^ 63

/-- The results of the additions and subtractions on totals and remaining quantities. -/
def Call.results (r : CRDTOrderBook P) (call : Call P) : List ℤ :=
  ((call.bookOp r).map fun op => op.results r.book).getD []

/-- There is room for an order that enters: what rests at its price, with the order, is in range. -/
def Call.HasRoom (r : CRDTOrderBook P) (call : Call P) : Prop :=
  ∀ op ∈ call.bookOp r, op.HasRoom (2 ^ 63 - 1) r.book

/-- The runs of one replica, with the results so far. -/
def ledgerSystem (P : Type*) [LinearOrder P] (nodeId : Str) :
    TransitionSystem (CRDTOrderBook P × List ℤ) (Call P) where
  init := (.new nodeId, [])
  enabled s call := call.Accepted s.1
  step s call := (call.run s.1, s.2 ++ call.results s.1)

namespace CRDTOrderBook

/-- The totals in a snapshot are the sums of what remains of the orders. -/
structure ShowsSums (r : CRDTOrderBook P) : Prop where
  bids : ∀ depth, ∀ level ∈ (r.getSnapshot depth).bids,
    level.totalQuantity = r.book.resting Side.buy level.price
  asks : ∀ depth, ∀ level ∈ (r.getSnapshot depth).asks,
    level.totalQuantity = r.book.resting Side.sell level.price

/-- All results are in range, and `BOOK` shows the sums. -/
def TotalsFit (s : CRDTOrderBook P × List ℤ) : Prop := (∀ n ∈ s.2, IsInt64 n) ∧ s.1.ShowsSums

/-- A replica in whose book everything is in range. -/
structure Bounded (r : CRDTOrderBook P) : Prop where
  wellFormed : r.WellFormed
  inv : r.book.Inv
  housed : r.book.Housed
  resting_le : ∀ side p, r.book.resting side p ≤ 2 ^ 63 - 1

variable {r : CRDTOrderBook P} {call : Call P}

theorem Bounded.new (n : Str) : (CRDTOrderBook.new n : CRDTOrderBook P).Bounded where
  wellFormed := .new n
  inv := .new
  housed := .new
  resting_le side p := by
    have hzero : (CRDTOrderBook.new n : CRDTOrderBook P).book.resting side p = 0 :=
      OrderBook.resting_new side p
    omega

theorem Bounded.showsSums (h : r.Bounded) : r.ShowsSums where
  bids depth level hlevel := by
    obtain ⟨e, he, rfl⟩ := List.mem_map.mp (List.mem_of_mem_take hlevel)
    have hprice : e.2.price = e.1 := congrArg PriceLevel.price (h.inv.bids.represents.of_mem he).1
    rw [totalQuantity_of_mem he, h.inv.totalAt_bids rfl, hprice]
  asks depth level hlevel := by
    obtain ⟨e, he, rfl⟩ := List.mem_map.mp (List.mem_of_mem_take hlevel)
    have hprice : e.2.price = e.1 := congrArg PriceLevel.price (h.inv.asks.represents.of_mem he).1
    have hsell : Side.sell ≠ Side.buy := nofun
    rw [totalQuantity_of_mem he, h.inv.totalAt_asks hsell, hprice]

/-- The call of the book behind an accepted call is admissible. -/
theorem admissible_of_accepted (hcall : call.Accepted r) {op : BookOp P}
    (hop : op ∈ call.bookOp r) : op.Admissible r.book := by
  cases call with
  | addOrder side price q oid opId =>
    obtain rfl := Option.some.inj hop
    exact ⟨hcall.1, rfl, hcall.2.1, rfl⟩
  | cancelOrder orderId opId u =>
    rw [Call.bookOp] at hop
    split_ifs at hop
    · obtain rfl := Option.some.inj hop
      trivial
    · cases hop
  | marketOrder side q gen =>
    obtain rfl := Option.some.inj hop
    trivial
  | applyRemote a =>
    rw [Call.bookOp, Operation.bookOp] at hop
    split_ifs at hop with _ ha
    · cases hop
    · obtain rfl := Option.some.inj hop
      exact (hcall ha).1
    · obtain rfl := Option.some.inj hop
      trivial
    · cases hop

/-- A call that finds room keeps everything in range. -/
theorem Bounded.run (h : r.Bounded) (hcall : call.Accepted r) (hroom : call.HasRoom r) :
    (call.run r).Bounded := by
  have hbook := h.wellFormed.book_run call
  cases hop : call.bookOp r with
  | none =>
    rw [hop] at hbook
    exact ⟨h.wellFormed.run call, hbook ▸ h.inv, hbook ▸ h.housed, fun side p =>
      hbook ▸ h.resting_le side p⟩
  | some op =>
    have hadm := admissible_of_accepted hcall hop
    have hchange := OrderBook.change_apply op hadm.enters
    rw [hop] at hbook
    change (call.run r).book = op.apply r.book at hbook
    refine ⟨h.wellFormed.run call, ?_, ?_, fun side p => ?_⟩
    · rw [hbook]
      exact h.inv.apply op hadm
    · rw [hbook]
      exact hchange.housed (fun o ho => ho.1 ▸ ho.2) h.housed
    · rw [hbook]
      exact h.inv.resting_apply_le h.housed.positive h.resting_le hadm (hroom op hop) side p

/-- The results of a call are in range if and only if it finds room. -/
theorem Bounded.isInt64_results_iff (h : r.Bounded) (hcall : call.Accepted r) :
    (∀ n ∈ call.results r, IsInt64 n) ↔ call.HasRoom r := by
  rw [Call.results, Call.HasRoom]
  cases hop : call.bookOp r with
  | none => exact iff_of_true nofun nofun
  | some op =>
    obtain ⟨hnonneg, hle⟩ :=
      h.inv.results_le_iff h.resting_le (admissible_of_accepted hcall hop)
    have hroom : (∀ a ∈ some op, a.HasRoom (2 ^ 63 - 1) r.book) ↔
        op.HasRoom (2 ^ 63 - 1) r.book := by simp
    rw [hroom, ← hle]
    refine forall₂_congr fun n hn => ?_
    have h₀ := hnonneg n hn
    rw [IsInt64]
    omega

/-- **Level totals.** In every state of a run, all additions and subtractions on totals and
remaining quantities have stayed in range, and `BOOK` shows the sums of what remains at each price,
if and only if every order that has entered found room at its price. -/
theorem totals_along_iff (nodeId : Str) {calls : List (Call P)}
    (h : (ledgerSystem P nodeId).Enables (.new nodeId, []) calls) :
    (ledgerSystem P nodeId).Along TotalsFit (.new nodeId, []) calls ↔
      (ledgerSystem P nodeId).Guarded (fun s call => call.HasRoom s.1) (.new nodeId, []) calls := by
  have hstep {s : CRDTOrderBook P × List ℤ} {call : Call P} (hs : ∀ n ∈ s.2, IsInt64 n) :
      (∀ n ∈ ((ledgerSystem P nodeId).step s call).2, IsInt64 n) ↔
        ∀ n ∈ call.results s.1, IsInt64 n := by
    simp only [ledgerSystem, List.mem_append, or_imp, forall_and]
    exact and_iff_right hs
  refine along_iff_guarded (I := fun s => s.1.Bounded ∧ ∀ n ∈ s.2, IsInt64 n)
    (fun s hs => ⟨hs.2, hs.1.showsSums⟩) (fun s call hs hcall hroom => ?_)
    (fun s call hs hcall hfull hfit => ?_) ⟨.new nodeId, nofun⟩ h
  · exact ⟨hs.1.run hcall hroom, (hstep hs.2).mpr ((hs.1.isInt64_results_iff hcall).mpr hroom)⟩
  · exact hfull ((hs.1.isInt64_results_iff hcall).mp ((hstep hs.2).mp hfit.1))

/-- An order is placed and a part of it sold. -/
theorem totals_along_iff_partly_sold :
    (ledgerSystem ℤ [65]).Along TotalsFit (.new [65], [])
      [.addOrder .buy 100 5 [1] [2], .marketOrder .sell 3 fun _ => ([3], ⟨.buy, 0, 0, 0, 0⟩)] := by
  have hnew : [1] ∉ (CRDTOrderBook.new [65] : CRDTOrderBook ℤ).book.orders :=
    AList.notMem_empty _
  have hruns : (ledgerSystem ℤ [65]).Enables (.new [65], [])
      [.addOrder .buy 100 5 [1] [2], .marketOrder .sell 3 fun _ => ([3], ⟨.buy, 0, 0, 0, 0⟩)] :=
    ⟨⟨hnew, by omega, by omega⟩, ⟨by omega, by omega⟩, trivial⟩
  refine (totals_along_iff [65] hruns).mpr ⟨?_, ?_, trivial⟩
  · rintro op ⟨rfl⟩
    have hzero := OrderBook.resting_new Side.buy (100 : ℤ)
    change (OrderBook.new : OrderBook ℤ).resting Side.buy 100 + 5 ≤ 2 ^ 63 - 1
    omega
  · rintro op ⟨rfl⟩
    trivial

/-- Two orders of the largest quantity at one price. -/
theorem not_totals_along_largest :
    ¬ (ledgerSystem ℤ [65]).Along TotalsFit (.new [65], [])
      [.addOrder .buy 100 (2 ^ 63 - 1) [1] [2], .addOrder .buy 100 (2 ^ 63 - 1) [3] [4]] := by
  rintro ⟨-, -, hfit, -⟩
  have hsum := hfit (2 ^ 64 - 2) (List.mem_of_getElem? (i := 1) rfl)
  exact absurd hsum.2 (by omega)

end CRDTOrderBook

end Convergence
