import Convergence.Gossip.PriceCodec

/-!
# Prices in exact arithmetic

What the codec does to a price when products and quotients are exact: `write_double` keeps whole
ticks of 1/10000 and 64 bits of them, and drops the rest. A message with arbitrary prices is encoded
to the bytes of the message with the prices that survive (`Message.serialize_overWire`), so this is
the message that the receiver decodes.

## Main definitions

* `wirePrice`, `Operation.overWire`, `Message.overWire`: prices and what carries them, after a hop.
* `Carried`: the conversion to `int64_t` is in range, and another replica reads the price itself.
* `WholeTicks`: the prices that the wire carries.

## Main results

* `Message.decode_overWire`: what the receiver decodes.
* `carried_iff`.
-/

namespace Convergence

open ByteReader

/-! ### One price -/

/-- What is left of a price after the conversion to an integer and back. -/
def wirePrice (v : ℚ) : ℚ := (toInt64 (toUInt64 (truncate (v * 10000))) : ℤ) / 10000

theorem isInt64_toInt64 {n : ℕ} (hn : n < 2 ^ 64) : IsInt64 (toInt64 n) := by
  rw [IsInt64, toInt64]
  split_ifs <;> omega

theorem toUInt64_toInt64 {n : ℕ} (hn : n < 2 ^ 64) : toUInt64 (toInt64 n) = n := by
  rw [toUInt64, toInt64]
  split_ifs <;> omega

/-- The price that another replica reads. -/
theorem hop_exact (v : ℚ) : hop id v = .ok (wirePrice v) := by
  have hdecodes : Decodes 8 8 (readDouble id 8)
      (BigEndian.encode 8 (toUInt64 (truncate (v * 10000)))) (· = wirePrice v) := by
    refine (decodes_readU64 (toUInt64_lt _) le_rfl).bind_pure ?_
    rintro _ rfl
    rfl
  have hmem := bytesAt_memory (BigEndian.encode 8 (toUInt64 (truncate (v * 10000)))) fun _ => 0
  obtain ⟨_, rfl, hok, -, -⟩ := hdecodes _ 0 hmem (by simp)
  rw [hop, writeDouble, id, writeU64_eq, List.nil_append, BigEndian.length_encode]
  exact hok

theorem wirePrice_mul (v : ℚ) :
    wirePrice v * 10000 = (toInt64 (toUInt64 (truncate (v * 10000))) : ℤ) := by
  rw [wirePrice, div_mul_cancel₀ _ (by norm_num)]

/-- A price that has been sent is written as it was before. -/
theorem toUInt64_truncate_wirePrice (v : ℚ) :
    toUInt64 (truncate (wirePrice v * 10000)) = toUInt64 (truncate (v * 10000)) := by
  rw [wirePrice_mul, truncate_intCast, toUInt64_toInt64 (toUInt64_lt _)]

/-- A positive price of whole ticks that fit 64 bits. -/
def WholeTicks (v : ℚ) : Prop := ∃ k : ℤ, v * 10000 = k ∧ k < 2 ^ 63

/-- The product fits `int64_t`, and the price that another replica reads is the same, and
positive. -/
structure Carried (v : ℚ) : Prop where
  inRange : IsInt64 (truncate (v * 10000))
  read : hop id v = .ok v
  pos : 0 < v

theorem wirePrice_eq_self {v : ℚ} (hpos : 0 < v) (h : WholeTicks v) : wirePrice v = v := by
  obtain ⟨k, hk, hlt⟩ := h
  have hkpos : 0 < k := by
    have hprod : (0 : ℚ) < k := hk ▸ mul_pos hpos (by norm_num)
    exact_mod_cast hprod
  rw [wirePrice, hk, truncate_intCast, toInt64_toUInt64 ⟨by omega, hlt⟩, ← hk]
  exact mul_div_cancel_right₀ v (by norm_num)

/-- The wire carries whole ticks in range, and no other price. -/
theorem carried_iff {v : ℚ} (hpos : 0 < v) : Carried v ↔ WholeTicks v := by
  constructor
  · rintro ⟨-, hread, -⟩
    rw [hop_exact] at hread
    have hself : wirePrice v = v := Except.ok.inj hread
    refine ⟨_, hself ▸ wirePrice_mul v, ?_⟩
    exact (isInt64_toInt64 (toUInt64_lt _)).2
  · intro h
    refine ⟨?_, ?_, hpos⟩
    · obtain ⟨k, hk, hlt⟩ := h
      have hkpos : (0 : ℚ) < k := hk ▸ mul_pos hpos (by norm_num)
      have hkpos : 0 < k := by exact_mod_cast hkpos
      rw [hk, truncate_intCast]
      exact ⟨by omega, hlt⟩
    · rw [hop_exact, wirePrice_eq_self hpos h]

/-! ### What carries prices -/

/-- The operation with the price of its order after a hop. -/
def Operation.overWire (op : Operation ℚ) : Operation ℚ :=
  { op with order := { op.order with price := wirePrice op.order.price } }

/-- The message after a hop. -/
def Message.overWire (m : Message) : Message :=
  { m with operations := m.operations.map Operation.overWire }

theorem operationBytes_overWire (op : Operation ℚ) :
    operationBytes id op.overWire = operationBytes id op := by
  have hprice : toUInt64 (truncate (id (wirePrice op.order.price * 10000))) =
      toUInt64 (truncate (id (op.order.price * 10000))) := toUInt64_truncate_wirePrice _
  rw [operationBytes, operationBytes, orderBytes, orderBytes, Operation.overWire, hprice]

/-- The bytes of a message do not tell what is lost of the prices. -/
theorem Message.serialize_overWire (m : Message) : m.overWire.serialize id = m.serialize id := by
  have hops : m.overWire.operations.flatMap (operationBytes id) =
      m.operations.flatMap (operationBytes id) := by
    rw [overWire, List.flatMap_map]
    exact congrArg (List.flatMap · m.operations) (funext operationBytes_overWire)
  have hlength : m.overWire.operations.length = m.operations.length := List.length_map _
  have hbody : m.overWire.bodyBytes id = m.bodyBytes id := by
    rw [bodyBytes, bodyBytes, hops, hlength]
    rfl
  rw [Message.serialize_eq, Message.serialize_eq, hbody]
  rfl

/-- A message arrives with the prices after a hop, when everything else in it fits. -/
theorem Message.decode_overWire {m : Message} (h : m.overWire.Encodable) (beyond : ℕ → UInt8) :
    ∃ m', m.overWire.Same m' ∧ (Message.decode id (m.serialize id) beyond).result = .ok m' := by
  rw [← m.serialize_overWire]
  obtain ⟨m', hsame, hok, -, -⟩ := Message.decodes_deserialize h
    (memory (m.overWire.serialize id) beyond) 0 (bytesAt_memory ..) (Nat.zero_add _).le
  exact ⟨m', hsame, hok⟩

end Convergence
