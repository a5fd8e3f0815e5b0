import Mathlib.Data.List.AList
import Mathlib.Data.List.Lex
import Mathlib.Data.Int.Order.Basic
import Mathlib.Data.Prod.Lex

/-!
# Orders and fills

The records of `order.h`. Prices range over an arbitrary type `P`; quantities are exact integers
and Lamport timestamps natural numbers.

`Side` and the other enumerations with a fixed underlying type keep every byte as a value, since
the message decoder casts a received byte to them unchecked. The code only ever compares a side
with `BUY`, so every other byte acts as `SELL`.

## Main definitions

* `Str`: `std::string`, a sequence of bytes.
* `Side`, `Order`, `Fill`, `OrderTable`.
* `Order.Before`: the total order that decides conflicts.
* `Order.uninit`: the `Order` member of a freshly declared `Operation`.
-/

namespace Convergence

/-- `std::string`: a sequence of bytes. -/
abbrev Str : Type := List UInt8

/-- Bytes compare as unsigned numbers, so strings compare as `std::string` does. -/
instance byteOrder : LinearOrder UInt8 where
  le_refl := UInt8.le_refl
  le_trans _ _ _ := UInt8.le_trans
  le_antisymm _ _ := UInt8.le_antisymm
  le_total := UInt8.le_total
  lt_iff_le_not_ge a b := by
    rw [UInt8.lt_iff_toNat_lt, UInt8.le_iff_toNat_le, UInt8.le_iff_toNat_le]
    omega
  toDecidableLE := inferInstance

/-- `enum class Side : uint8_t`. -/
structure Side where
  /-- The underlying byte. -/
  code : UInt8
  deriving DecidableEq

/-- `Side::BUY`. -/
def Side.buy : Side := ⟨0⟩

/-- `Side::SELL`. -/
def Side.sell : Side := ⟨1⟩

/-- A limit order. -/
structure Order (P : Type*) where
  orderId : Str
  nodeId : Str
  side : Side
  price : P
  quantity : ℤ
  remaining : ℤ
  /-- Lamport timestamp from the vector clock. -/
  timestamp : ℕ
  isCancelled : Bool := false
  deriving DecidableEq

/-- An order that can still be filled: not cancelled, with something remaining. -/
def Order.isActive {P : Type*} (o : Order P) : Bool := !o.isCancelled && decide (0 < o.remaining)

/-- `Order::operator<`: the earlier timestamp, then the smaller node id, then the smaller id. -/
def Order.Before {P : Type*} (o other : Order P) : Prop :=
  if o.timestamp ≠ other.timestamp then o.timestamp < other.timestamp
  else if o.nodeId ≠ other.nodeId then o.nodeId < other.nodeId
  else o.orderId < other.orderId

instance {P : Type*} : DecidableRel (Order.Before (P := P)) := fun _ _ =>
  inferInstanceAs (Decidable (ite _ _ _))

section Before

variable {P : Type*} {o o' o'' : Order P}

/-- The fields that `Order::operator<` compares, the first one first. -/
def Order.rank (o : Order P) : ℕ ×ₗ Str ×ₗ Str := toLex (o.timestamp, toLex (o.nodeId, o.orderId))

theorem Order.before_iff : o.Before o' ↔ o.rank < o'.rank := by
  simp only [Before, rank, Prod.Lex.toLex_lt_toLex]
  split_ifs with ht hn
  · simp [ht]
  · simp [not_not.mp ht, hn]
  · simp [not_not.mp ht, not_not.mp hn]

theorem Order.Before.trans (h : o.Before o') (h' : o'.Before o'') : o.Before o'' :=
  before_iff.mpr ((before_iff.mp h).trans (before_iff.mp h'))

theorem Order.Before.asymm (h : o.Before o') : ¬ o'.Before o := fun h' =>
  (before_iff.mp h).asymm (before_iff.mp h')

/-- Orders with different ids are ranked one way or the other. -/
theorem Order.before_or_before (h : o.orderId ≠ o'.orderId) : o.Before o' ∨ o'.Before o := by
  rw [before_iff, before_iff]
  refine lt_or_gt_of_ne fun heq => h ?_
  exact congrArg (fun r => (ofLex (ofLex r).2).2) heq

theorem Order.before_of_timestamp_lt (h : o.timestamp < o'.timestamp) : o.Before o' := by
  rw [Before, if_pos h.ne]
  exact h

end Before

/-- One execution against a resting order. -/
structure Fill (P : Type*) where
  orderId : Str
  price : P
  quantity : ℤ
  deriving DecidableEq

/-- `std::unordered_map<std::string, Order>`, with the order in which it would be iterated. -/
abbrev OrderTable (P : Type*) : Type _ := AList fun _ : Str => Order P

/-- The scalar fields of `Order` without a member initialiser. In a default-initialised `Order`
they hold whatever memory held. -/
structure Uninit (P : Type*) where
  side : Side
  price : P
  quantity : ℤ
  remaining : ℤ
  timestamp : ℕ

/-- A default-initialised `Order`: the strings are empty, `is_cancelled` is `false`, and the other
fields are left as found in memory. -/
def Order.uninit {P : Type*} (u : Uninit P) : Order P where
  orderId := []
  nodeId := []
  side := u.side
  price := u.price
  quantity := u.quantity
  remaining := u.remaining
  timestamp := u.timestamp
  isCancelled := false

end Convergence
