import Convergence.Gossip.DatagramSize
import Convergence.Gossip.MatchingReplicas
import Convergence.Gossip.PriceCodec
import Convergence.Gossip.Truncation

/-!
# What a datagram carries

A message that fits into a datagram is decoded to a message that matches it: no string and no clock
in it is too long for its length field. What can get lost of the numbers is what exceeds 64 bits and
what a price loses when it is written and read. The order of a cancellation holds what happened to
be in memory, and arrives as it may.

## Main definitions

* `Order.Portable`, `Operation.Portable`, `Message.Portable`: the numbers that have to survive do.

## Main results

* `Message.Fits.lengthsFit`: the lengths in a message that fits.
* `Message.decode_matches`.
-/

namespace Convergence

open ByteReader

/-! ### Numbers -/

/-- The counters fit 64 bits. -/
def VectorClock.CountersFit (c : VectorClock) : Prop := ∀ k, c.get k < 2 ^ 64

/-- The numbers of an order survive a hop. -/
structure Order.Portable (rnd : ℚ → ℚ) (o : Order ℚ) : Prop where
  price : hop rnd o.price = .ok o.price
  quantity : IsInt64 o.quantity
  remaining : IsInt64 o.remaining
  timestamp : o.timestamp < 2 ^ 64

/-- The numbers of an operation that are looked at survive a hop. -/
structure Operation.Portable (rnd : ℚ → ℚ) (op : Operation ℚ) : Prop where
  order : op.IsAdd → op.order.Portable rnd
  clock : op.clock.CountersFit

/-- The numbers of a message that are looked at survive a hop. -/
structure Message.Portable (rnd : ℚ → ℚ) (m : Message) : Prop where
  senderClock : m.senderClock.CountersFit
  operations : ∀ op ∈ m.operations, op.Portable rnd

theorem Operation.Matches.portable {rnd : ℚ → ℚ} {op op' : Operation ℚ} (h : op.Matches op')
    (hs : op.Portable rnd) : op'.Portable rnd where
  order hadd := by
    have hadd := h.isAdd_iff.mpr hadd
    exact h.order hadd ▸ hs.order hadd
  clock := by
    rw [VectorClock.CountersFit, ← h.clock.get]
    exact hs.clock

theorem OperationsMatch.portable {rnd : ℚ → ℚ} {ops ops' : List (Operation ℚ)}
    (h : OperationsMatch ops ops') (hs : ∀ op ∈ ops, op.Portable rnd) :
    ∀ op ∈ ops', op.Portable rnd := by
  induction h with
  | nil => exact hs
  | cons hop _ ih =>
    obtain ⟨hhead, htail⟩ := List.forall_mem_cons.mp hs
    exact List.forall_mem_cons.mpr ⟨hop.portable hhead, ih htail⟩

/-! ### Lengths -/

/-- A term of a sum is at most the sum. -/
theorem le_sum_map {α : Type} {l : List α} {a : α} (f : α → ℕ) (ha : a ∈ l) :
    f a ≤ (l.map f).sum :=
  List.single_le_sum (fun _ _ => Nat.zero_le _) _ (List.mem_map_of_mem ha)

/-- There are at most as many items as they have bytes. -/
theorem length_le_sum_map {α : Type} {l : List α} {f : α → ℕ} (hf : ∀ a, 0 < f a) :
    l.length ≤ (l.map f).sum := by
  rw [← List.length_map (f := f)]
  refine List.length_le_sum_of_one_le _ fun n hn => ?_
  obtain ⟨a, -, rfl⟩ := List.mem_map.mp hn
  exact hf a

/-- A clock of the size of a datagram has lengths and counts that fit their fields. -/
theorem VectorClock.CountersFit.encodable {c : VectorClock} (h : c.CountersFit)
    (hsize : c.size ≤ maxDatagram) : c.Encodable := by
  have hlength := c.length_serialize
  have hcount := length_le_sum_map (l := c.clock.entries) (f := fun e => 10 + e.1.length)
    fun e => by omega
  rw [size, maxDatagram] at hsize
  refine ⟨?_, by omega, fun e he => ?_, fun e he => ?_, by rw [hlength, size]; omega⟩
  · rw [Short]
    omega
  · have hkey := le_sum_map (fun e : (_ : Str) × ℕ => 10 + e.1.length) he
    rw [Short]
    omega
  · have hcounter := h e.1
    rwa [get, ClockMap.counter, mem_entries_iff.mp he, Option.getD_some] at hcounter

namespace Message.Fits

variable {rnd : ℚ → ℚ} {m : Message}

theorem size_le (h : m.Fits rnd) : 15 + m.senderId.length + m.senderClock.size +
    (m.operations.map Operation.size).sum ≤ maxDatagram := by
  rwa [Message.Fits, Message.length_serialize] at h

theorem operation_size_le (h : m.Fits rnd) {op : Operation ℚ} (hop : op ∈ m.operations) :
    op.size ≤ maxDatagram := by
  have hsize := h.size_le
  have hop := le_sum_map Operation.size hop
  omega

/-- In a message that fits into a datagram nothing is too long for its length field. -/
theorem lengthsFit (h : m.Fits rnd) : m.LengthsFit := by
  have hsize := h.size_le
  have hcount : m.operations.length ≤ (m.operations.map Operation.size).sum :=
    length_le_sum_map fun op => by rw [Operation.size]; omega
  rw [maxDatagram] at hsize
  refine ⟨?_, by rw [VectorClock.length_serialize]; omega, by omega, fun op hop => ?_⟩
  · rw [Short]
    omega
  · have hop := h.operation_size_le hop
    rw [Operation.size, maxDatagram] at hop
    refine ⟨?_, ?_, ?_, ?_, by rw [VectorClock.length_serialize]; omega, ?_⟩
    all_goals
      rw [Short]
      omega

end Message.Fits

/-! ### Decoding -/

section Checked

variable {size limit : ℕ} (rnd : ℚ → ℚ)

theorem decodes_readDouble_wire (v : ℚ) (hs : limit ≤ size) :
    Decodes size limit (readDouble rnd limit)
      (BigEndian.encode 8 (toUInt64 (truncate (rnd (v * 10000)))))
      fun w => hop rnd v = .ok w := by
  have hdecodes {size limit : ℕ} (hs : limit ≤ size) : Decodes size limit (readDouble rnd limit)
      (BigEndian.encode 8 (toUInt64 (truncate (rnd (v * 10000)))))
      (· = rnd (rnd (toInt64 (toUInt64 (truncate (rnd (v * 10000))))) / 10000)) := by
    refine (decodes_readU64 (toUInt64_lt _) hs).bind_pure ?_
    rintro _ rfl
    rfl
  have hmem := bytesAt_memory (BigEndian.encode 8 (toUInt64 (truncate (rnd (v * 10000)))))
    fun _ => 0
  obtain ⟨_, rfl, hok, -, -⟩ := hdecodes (le_refl 8) _ 0 hmem (by simp)
  refine (hdecodes hs).imp ?_
  rintro _ rfl
  rw [hop, writeDouble, writeU64_eq, List.nil_append, BigEndian.length_encode]
  exact hok

theorem decodes_readU64_mod (n : ℕ) (hs : limit ≤ size) :
    Decodes size limit (readU64 limit) (BigEndian.encode 8 n) (· = n % 2 ^ 64) := by
  rw [← BigEndian.encode_mod n (le_refl 8), show (256 : ℕ) ^ 8 = 2 ^ 64 by rfl]
  exact decodes_readU64 (Nat.mod_lt n (by decide)) hs

/-- An order arrives, and it is the same if its numbers survive. -/
theorem decodes_readOrder_wire {o : Order ℚ} (hid : Short o.orderId) (hnode : Short o.nodeId)
    (hs : limit ≤ size) :
    Decodes size limit (readOrder rnd limit) (orderBytes rnd o)
      fun o' => o.Portable rnd → o = o' := by
  refine (decodes_readString hid hs).bind ?_
  rintro _ rfl
  refine (decodes_readString hnode hs).bind ?_
  rintro _ rfl
  refine (decodes_readU8 o.side.code hs).bind ?_
  rintro _ rfl
  refine (decodes_readDouble_wire rnd o.price hs).bind fun price hprice => ?_
  refine (decodes_readU64 (toUInt64_lt o.quantity) hs).bind ?_
  rintro _ rfl
  refine (decodes_readU64 (toUInt64_lt o.remaining) hs).bind ?_
  rintro _ rfl
  refine (decodes_readU64_mod o.timestamp hs).bind ?_
  rintro _ rfl
  refine (decodes_readU8 _ hs).bind_pure ?_
  rintro _ rfl h
  obtain rfl : o.price = price := Except.ok.inj (h.price.symm.trans hprice)
  rw [toInt64_toUInt64 h.quantity, toInt64_toUInt64 h.remaining, Nat.mod_eq_of_lt h.timestamp]
  cases o with
  | mk orderId nodeId side price quantity remaining timestamp isCancelled =>
    cases isCancelled <;> rfl

theorem decodes_readOperation_wire {op : Operation ℚ} (h : op.LengthsFit)
    (hclock : op.clock.Encodable) (hportable : op.Portable rnd) :
    Decodes size size (readOperation rnd size) (operationBytes rnd op) op.Matches := by
  refine (decodes_readU8 op.type.code le_rfl).bind ?_
  rintro _ rfl
  refine (decodes_readOrder_wire rnd h.orderId h.nodeId le_rfl).bind fun order horder => ?_
  refine (decodes_readString h.cancelOrderId le_rfl).bind ?_
  rintro _ rfl
  refine (decodes_readString h.originNode le_rfl).bind ?_
  rintro _ rfl
  refine (decodes_readU32 h.clock le_rfl).bind ?_
  rintro _ rfl
  refine .check_bind (by simp) ?_
  refine (VectorClock.decodes_deserialize hclock le_rfl).peek_bind fun clock hsame => ?_
  refine (Decodes.skip rfl).bind fun _ _ => ?_
  refine (decodes_readString h.opId le_rfl).bind_pure ?_
  rintro _ rfl
  exact ⟨rfl, fun hadd => horder (hportable.order hadd), rfl, rfl, hsame, rfl⟩

theorem decodes_deserialize_wire {m : Message} (h : m.Fits rnd) (hs : m.Portable rnd) :
    Decodes size size (Message.deserialize rnd size) (m.serialize rnd) m.Matches := by
  have hlengths := h.lengthsFit
  have hclock : m.senderClock.Encodable := hs.senderClock.encodable (by
    have hsize := h.size_le
    omega)
  rw [Message.serialize_eq]
  refine (decodes_readU8 m.type.code le_rfl).bind ?_
  rintro _ rfl
  -- The length is read and ignored.
  have hlength (n : ℕ) : Decodes size size (readU32 size) (BigEndian.encode 4 n) fun _ => True :=
    (decodes_readBytes (BigEndian.length_encode 4 n) le_rfl).bind_pure fun _ _ => trivial
  refine (hlength _).bind fun _ _ => ?_
  refine (decodes_readString hlengths.senderId le_rfl).bind ?_
  rintro _ rfl
  refine (decodes_readU32 hlengths.senderClock le_rfl).bind ?_
  rintro _ rfl
  refine (VectorClock.decodes_deserialize hclock le_rfl).peek_bind fun clock hsame => ?_
  refine (decodes_times_readU8 _).bind fun _ _ => ?_
  refine (decodes_readU32 hlengths.count le_rfl).bind ?_
  rintro _ rfl
  have hoperations : Decodes size size (times m.operations.length (readOperation rnd size))
      (m.operations.flatMap (operationBytes rnd)) (OperationsMatch m.operations) :=
    .times m.operations fun op hop => by
      have hop' := hlengths.operations op hop
      have hportable := hs.operations op hop
      have hsize : op.clock.size ≤ maxDatagram := by
        have hsize := h.operation_size_le hop
        rw [Operation.size] at hsize
        omega
      exact decodes_readOperation_wire rnd hop' (hportable.clock.encodable hsize) hportable
  exact hoperations.bind_pure fun ops hops => ⟨rfl, rfl, hsame, hops⟩

end Checked

/-- **A message that fits arrives.** The decoder accepts it, whatever lies behind it in memory, and
makes a matching message of it. -/
theorem Message.decode_matches {rnd : ℚ → ℚ} {m : Message} (h : m.Fits rnd) (hs : m.Portable rnd)
    (beyond : ℕ → UInt8) :
    ∃ m', m.Matches m' ∧ (Message.decode rnd (m.serialize rnd) beyond).result = .ok m' := by
  obtain ⟨m', hm, hok, -, -⟩ := decodes_deserialize_wire rnd h hs
    (memory (m.serialize rnd) beyond) 0 (bytesAt_memory ..) (Nat.zero_add _).le
  exact ⟨m', hm, hok⟩

end Convergence
