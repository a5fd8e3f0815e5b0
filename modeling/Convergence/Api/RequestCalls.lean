import Convergence.Api.ClientHandler
import Convergence.Api.LevelTotals
import Convergence.Crdt.FailedCancel
import Convergence.Gossip.PriceLevels

/-!
# Requests as calls

What `ClientHandler::handle` does to a replica is nothing, or one of its calls with arguments that
have passed the checks. So the runs under the text protocol are runs of calls, and their steps are
among those of `ledgerSystem` and `wireSystem`.

## Main definitions

* `Call.FromClient`: the calls that a request can lead to.
* `ClientHandler.Calls`: the replica after no call or one.

## Main results

* `ClientHandler.calls_handle`.
* `Call.FromClient.accepted`, `Call.FromClient.wireEnabled`.
-/

namespace Convergence

open TextStream DecimalText

/-- A call whose arguments have passed the checks of the handler. -/
def Call.FromClient (env : Environment) : Call ℚ → Prop
  | addOrder side price quantity oid opId =>
    (side = .buy ∨ side = .sell) ∧ 0 < price ∧ 0 < quantity ∧ quantity < 2 ^ 63 ∧
      oid = env.uuid 0 ∧ opId = env.uuid 1
  | cancelOrder _ opId u => opId = env.uuid 0 ∧ u = env.memory 0
  | marketOrder side quantity gen =>
    (side = .buy ∨ side = .sell) ∧ 0 < quantity ∧ quantity < 2 ^ 63 ∧
      gen = fun n => (env.uuid n, env.memory n)
  | applyRemote _ => False

namespace ClientHandler

theorem storeInteger_le {low high : ℤ} (hlow : low ≤ high) (hhigh : 0 ≤ high) (q : IntegerState) :
    (storeInteger low high q).1 ≤ high := by
  rw [storeInteger]
  split
  · exact hhigh
  · split_ifs <;> dsimp only <;> omega

/-- An integer that has been extracted is in range if the old one is. -/
theorem extractInt64_lt {old : ℤ} (h : old < 2 ^ 63) (ss : TextStream UInt8) :
    (extractInt64 ss old).2 < 2 ^ 63 := by
  rw [extractInt64, extract]
  split_ifs
  · exact h
  · split
    · exact h
    · exact Int.lt_of_le_sub_one (storeInteger_le (by norm_num) (by norm_num) _)

theorem side_of_parseSide {name : Str} {side : Side} (h : parseSide name = some side) :
    side = .buy ∨ side = .sell := by
  rw [parseSide] at h
  split_ifs at h
  · exact Or.inl (Option.some.inj h).symm
  · exact Or.inr (Option.some.inj h).symm

section Requests

variable {env : Environment} (hqty : env.qty < 2 ^ 63) (book : CRDTOrderBook ℚ)

/-- The replica is left alone, or one call is made. -/
def Calls (env : Environment) (book book' : CRDTOrderBook ℚ) : Prop :=
  book' = book ∨ ∃ call : Call ℚ, call.FromClient env ∧ book' = call.run book

include hqty

theorem calls_handleAdd (ss : TextStream UInt8) : Calls env book (handleAdd env book ss).1 := by
  rw [handleAdd]
  dsimp only
  have hlt := extractInt64_lt hqty (extractDouble (extractString ss []).1 env.price).1
  cases hside : parseSide (toUpper (extractString ss []).2) with
  | none => exact Or.inl rfl
  | some side =>
    dsimp only
    split_ifs with hbad
    · exact Or.inl rfl
    · rw [not_or, not_le, not_le] at hbad
      exact Or.inr ⟨.addOrder side _ _ (env.uuid 0) (env.uuid 1),
        ⟨side_of_parseSide hside, hbad.1, hbad.2, hlt, rfl, rfl⟩, rfl⟩

theorem calls_handleMarket (ss : TextStream UInt8) :
    Calls env book (handleMarket env book ss).1 := by
  rw [handleMarket]
  dsimp only
  have hlt := extractInt64_lt hqty (extractString ss []).1
  cases hside : parseSide (toUpper (extractString ss []).2) with
  | none => exact Or.inl rfl
  | some side =>
    dsimp only
    split_ifs with hbad
    · exact Or.inl rfl
    · exact Or.inr ⟨.marketOrder side _ _, ⟨side_of_parseSide hside, not_le.mp hbad, hlt, rfl⟩, rfl⟩

omit hqty in
theorem calls_handleCancel (ss : TextStream UInt8) :
    Calls env book (handleCancel env book ss).1 := by
  rw [handleCancel]
  dsimp only
  by_cases hid : (extractString ss []).2 = []
  · rw [if_pos hid]
    exact Or.inl rfl
  · rw [if_neg hid]
    exact Or.inr ⟨.cancelOrder _ (env.uuid 0) (env.memory 0), ⟨rfl, rfl⟩, rfl⟩

/-- **Requests as calls.** A request leaves the replica alone or makes one call, with arguments that
have passed the checks. -/
theorem calls_handle (request : Str) : Calls env book (handle env book request).1 := by
  rw [handle]
  dsimp only
  split_ifs
  · exact calls_handleAdd hqty book _
  · exact calls_handleCancel book _
  · exact calls_handleMarket hqty book _
  all_goals exact Or.inl rfl

end Requests

end ClientHandler

namespace Call.FromClient

variable {env : Environment} {call : Call ℚ}

/-- With generated ids that are new, the call is one of those that put quantities into range. -/
theorem accepted (h : call.FromClient env) {r : CRDTOrderBook ℚ} (hnew : call.NewOrderId r) :
    call.Accepted r := by
  cases call with
  | addOrder => exact ⟨hnew, h.2.2.1, h.2.2.2.1⟩
  | cancelOrder => trivial
  | marketOrder => exact ⟨h.2.1, h.2.2.1⟩
  | applyRemote => exact h.elim

theorem wireEnabled (h : call.FromClient env) {c : Str → CRDTOrderBook ℚ}
    (hnew : ∀ o, Added c o → o.orderId ≠ env.uuid 0) (n : Str) : WireEnabled c (n, call) := by
  cases call with
  | addOrder => exact ⟨fun o ho => h.2.2.2.2.1 ▸ hnew o ho, h.2.1, h.2.2.1⟩
  | cancelOrder => trivial
  | marketOrder => trivial
  | applyRemote => exact h.elim

end Call.FromClient

end Convergence
