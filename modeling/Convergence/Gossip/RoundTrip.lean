import Convergence.Gossip.Message
import Mathlib.Tactic.Linarith

/-!
# Round trip of the codec

What the decoder makes of an encoded message, with prices in exact arithmetic. Each writer appends
a byte string of its own, and each reader understands the string that its writer appends. The clock
of a message is read by the reader without checks; on encoded messages it stays within its bytes.

A decoded clock may iterate in another order than the encoded one: the reader starts from the entry
of the owner and then sets the entries it finds. So clocks are compared as maps.

## Main definitions

* `Message.Encodable`: the values of all fields fit the widths of the encoding.
* `Message.Same`: equal fields, clocks compared as maps.
* `stringBytes`, `orderBytes`, `VectorClock.entryBytes`, `operationBytes`.

## Main results

* `VectorClock.decodes_deserialize`, `decodes_readOperation`, `Message.decodes_deserialize`.
* `Message.decode_serialize`: the round trip.
-/

namespace Convergence

open ByteReader

/-! ### What fits on the wire -/

/-- The range of `int64_t`. -/
def IsInt64 (i : ℤ) : Prop := -2 ^ 63 ≤ i ∧ i < 2 ^ 63

instance (i : ℤ) : Decidable (IsInt64 i) := inferInstanceAs (Decidable (_ ∧ _))

/-- The length of the string fits its prefix. -/
def Short (s : Str) : Prop := s.length < 2 ^ 16

instance (s : Str) : Decidable (Short s) := inferInstanceAs (Decidable (_ < _))

/-- A clock whose strings and counts fit their prefixes. -/
structure VectorClock.Encodable (c : VectorClock) : Prop where
  nodeId : Short c.nodeId
  size : c.clock.entries.length < 2 ^ 32
  keys : ∀ e ∈ c.clock.entries, Short e.1
  counters : ∀ e ∈ c.clock.entries, e.2 < 2 ^ 64
  length : c.serialize.length < 2 ^ 32

/-- An order whose fields fit, with a price in whole ticks. -/
structure Order.Encodable (o : Order ℚ) : Prop where
  orderId : Short o.orderId
  nodeId : Short o.nodeId
  price : ∃ k : ℤ, IsInt64 k ∧ o.price = k / 10000
  quantity : IsInt64 o.quantity
  remaining : IsInt64 o.remaining
  timestamp : o.timestamp < 2 ^ 64

/-- An operation whose fields fit. -/
structure Operation.Encodable (op : Operation ℚ) : Prop where
  order : op.order.Encodable
  cancelOrderId : Short op.cancelOrderId
  originNode : Short op.originNode
  clock : op.clock.Encodable
  opId : Short op.opId

/-- A message whose fields fit. -/
structure Message.Encodable (m : Message) : Prop where
  senderId : Short m.senderId
  senderClock : m.senderClock.Encodable
  count : m.operations.length < 2 ^ 32
  operations : ∀ op ∈ m.operations, op.Encodable

/-! ### Equality up to the iteration order of clocks -/

/-- The same owner and the same map. -/
structure VectorClock.Same (c c' : VectorClock) : Prop where
  nodeId : c.nodeId = c'.nodeId
  lookup : ∀ k, c.clock.lookup k = c'.clock.lookup k

/-- Equal fields, clocks compared as maps. -/
structure Operation.Same (op op' : Operation ℚ) : Prop where
  type : op.type = op'.type
  order : op.order = op'.order
  cancelOrderId : op.cancelOrderId = op'.cancelOrderId
  originNode : op.originNode = op'.originNode
  clock : op.clock.Same op'.clock
  opId : op.opId = op'.opId

/-- Equal fields, clocks compared as maps, the operations in order. -/
structure Message.Same (m m' : Message) : Prop where
  type : m.type = m'.type
  senderId : m.senderId = m'.senderId
  senderClock : m.senderClock.Same m'.senderClock
  operations : List.Forall₂ Operation.Same m.operations m'.operations

/-! ### Casts -/

/-- A signed integer survives the cast to an unsigned one and back. -/
theorem toInt64_toUInt64 {i : ℤ} (h : IsInt64 i) : toInt64 (toUInt64 i) = i := by
  obtain ⟨hlo, hhi⟩ := h
  rw [toInt64, toUInt64]
  split_ifs <;> omega

theorem toUInt64_lt (i : ℤ) : toUInt64 i < 2 ^ 64 := by
  rw [toUInt64]
  omega

@[simp] theorem truncate_intCast (k : ℤ) : truncate k = k := by
  rw [truncate]
  split_ifs
  · exact Int.floor_intCast k
  · exact Int.ceil_intCast k

/-! ### What the writers append -/

/-- The bytes of `write_string`. -/
def stringBytes (s : Str) : List UInt8 := BigEndian.encode 2 s.length ++ s

/-- The bytes of `write_order`. -/
def orderBytes (rnd : ℚ → ℚ) (o : Order ℚ) : List UInt8 :=
  stringBytes o.orderId ++ (stringBytes o.nodeId ++ ([o.side.code] ++
    (BigEndian.encode 8 (toUInt64 (truncate (rnd (o.price * 10000)))) ++
      (BigEndian.encode 8 (toUInt64 o.quantity) ++ (BigEndian.encode 8 (toUInt64 o.remaining) ++
        (BigEndian.encode 8 o.timestamp ++ [if o.isCancelled then 1 else 0]))))))

/-- The bytes of one clock entry. -/
def VectorClock.entryBytes (e : (_ : Str) × ℕ) : List UInt8 :=
  stringBytes e.1 ++ BigEndian.encode 8 e.2

/-- The bytes of `write_operation`. -/
def operationBytes (rnd : ℚ → ℚ) (op : Operation ℚ) : List UInt8 :=
  [op.type.code] ++ (orderBytes rnd op.order ++ (stringBytes op.cancelOrderId ++
    (stringBytes op.originNode ++ (BigEndian.encode 4 op.clock.serialize.length ++
      (op.clock.serialize ++ stringBytes op.opId)))))

/-- The two halves of a 64-bit number, as both writers send them. -/
theorem encode_halves (v : ℕ) :
    BigEndian.encode 4 (v >>> 32) ++ BigEndian.encode 4 (v &&& 0xFFFFFFFF) =
      BigEndian.encode 8 v := by
  rw [BigEndian.encode_add 4 4, Nat.shiftRight_eq_div_pow,
    show (0xFFFFFFFF : ℕ) = 2 ^ 32 - 1 by rfl, Nat.and_two_pow_sub_one_eq_mod,
    show (2 : ℕ) ^ 32 = 256 ^ 4 by rfl, BigEndian.encode_mod v le_rfl]

theorem writeU64_eq (buf : List UInt8) (v : ℕ) : writeU64 buf v = buf ++ BigEndian.encode 8 v := by
  rw [writeU64, writeU32, writeU32, List.append_assoc, encode_halves]

theorem writeString_eq (buf : List UInt8) (s : Str) : writeString buf s = buf ++ stringBytes s := by
  rw [writeString, writeU16, stringBytes, List.append_assoc]

theorem writeOrder_eq (rnd : ℚ → ℚ) (buf : List UInt8) (o : Order ℚ) :
    writeOrder rnd buf o = buf ++ orderBytes rnd o := by
  simp only [writeOrder, writeString_eq, writeU8, writeDouble, writeU64_eq, orderBytes,
    List.append_assoc]

theorem writeOperation_eq (rnd : ℚ → ℚ) (buf : List UInt8) (op : Operation ℚ) :
    writeOperation rnd buf op = buf ++ operationBytes rnd op := by
  simp only [writeOperation, writeU8, writeOrder_eq, writeString_eq, writeU32, operationBytes,
    List.append_assoc]

/-- A loop that appends to a buffer. -/
theorem foldl_append {ι : Type} {f : List UInt8 → ι → List UInt8} {g : ι → List UInt8}
    (h : ∀ buf i, f buf i = buf ++ g i) (items : List ι) (buf : List UInt8) :
    items.foldl f buf = buf ++ items.flatMap g := by
  obtain rfl : f = fun buf i => buf ++ g i := funext₂ h
  rw [List.foldl_append_eq_append, List.flatMap_def]

theorem VectorClock.serialize_eq (c : VectorClock) :
    c.serialize = stringBytes c.nodeId ++ (BigEndian.encode 4 c.clock.entries.length ++
      c.clock.entries.flatMap entryBytes) := by
  rw [serialize, foldl_append (g := entryBytes) fun buf e => ?_]
  · simp only [stringBytes, List.append_assoc]
  · simp only [entryBytes, stringBytes, List.append_assoc, encode_halves]

/-- The bytes of a message behind its length field. -/
def Message.bodyBytes (rnd : ℚ → ℚ) (m : Message) : List UInt8 :=
  stringBytes m.senderId ++ (BigEndian.encode 4 m.senderClock.serialize.length ++
    (m.senderClock.serialize ++ (BigEndian.encode 4 m.operations.length ++
      m.operations.flatMap (operationBytes rnd))))

/-- Filling in the length replaces the placeholder and nothing else. -/
theorem Message.serialize_eq (rnd : ℚ → ℚ) (m : Message) :
    m.serialize rnd = [m.type.code] ++
      (BigEndian.encode 4 (5 + (m.bodyBytes rnd).length) ++ m.bodyBytes rnd) := by
  have hbuf : m.operations.foldl (writeOperation rnd)
      (writeU32 (writeU32 (writeString (writeU32 (writeU8 [] m.type.code) 0) m.senderId)
        m.senderClock.serialize.length ++ m.senderClock.serialize) m.operations.length) =
      [m.type.code] ++ (BigEndian.encode 4 0 ++ m.bodyBytes rnd) := by
    rw [foldl_append (writeOperation_eq rnd)]
    simp only [writeU32, writeU8, writeString_eq, bodyBytes, List.append_assoc, List.nil_append]
  rw [serialize, hbuf]
  simp [writeU8, Nat.add_right_comm 4, Nat.add_comm 5]

/-- A number of `w` bytes, however the bytes are read. -/
theorem decodes_number {size limit w n : ℕ} {r : Reader (List UInt8)} (hn : n < 256 ^ w)
    (hr : Decodes size limit r (BigEndian.encode w n) (· = BigEndian.encode w n)) :
    Decodes size limit (r >>= fun bytes => pure (BigEndian.decode bytes)) (BigEndian.encode w n)
      (· = n) := by
  refine hr.bind_pure ?_
  rintro _ rfl
  exact BigEndian.decode_encode_of_lt hn

/-! ### Checked readers -/

section Checked

variable {size limit : ℕ}

theorem decodes_readBytes {bytes : List UInt8} {k : ℕ} (hk : bytes.length = k)
    (hs : limit ≤ size) : Decodes size limit (readBytes limit k) bytes (· = bytes) :=
  .check_bind hk.ge (.take hk le_rfl hs)

theorem decodes_readU8 (b : UInt8) (hs : limit ≤ size) :
    Decodes size limit (readU8 limit) [b] (· = b) := by
  refine (decodes_readBytes rfl hs).bind_pure ?_
  rintro _ rfl
  rfl

theorem decodes_readU16 {n : ℕ} (hn : n < 2 ^ 16) (hs : limit ≤ size) :
    Decodes size limit (readU16 limit) (BigEndian.encode 2 n) (· = n) :=
  decodes_number hn (decodes_readBytes (BigEndian.length_encode 2 n) hs)

theorem decodes_readU32 {n : ℕ} (hn : n < 2 ^ 32) (hs : limit ≤ size) :
    Decodes size limit (readU32 limit) (BigEndian.encode 4 n) (· = n) :=
  decodes_number hn (decodes_readBytes (BigEndian.length_encode 4 n) hs)

/-- Putting the halves of a 64-bit number together. -/
theorem shiftLeft_or_halves (n : ℕ) :
    (n / 2 ^ 32) <<< 32 ||| n % 2 ^ 32 = n := by
  rw [← Nat.shiftLeft_add_eq_or_of_lt (Nat.mod_lt n (by decide)), Nat.shiftLeft_eq, Nat.mul_comm]
  exact Nat.div_add_mod n (2 ^ 32)

theorem decodes_readU64 {n : ℕ} (hn : n < 2 ^ 64) (hs : limit ≤ size) :
    Decodes size limit (readU64 limit) (BigEndian.encode 8 n) (· = n) := by
  rw [BigEndian.encode_add 4 4, ← BigEndian.encode_mod n (le_refl 4)]
  refine (decodes_readU32 (Nat.div_lt_of_lt_mul hn) hs).bind ?_
  rintro _ rfl
  refine (decodes_readU32 (Nat.mod_lt n (by decide)) hs).bind_pure ?_
  rintro _ rfl
  exact shiftLeft_or_halves n

theorem decodes_readString {s : Str} (h : Short s) (hs : limit ≤ size) :
    Decodes size limit (readString limit) (stringBytes s) (· = s) := by
  refine (decodes_readU16 h hs).bind ?_
  rintro _ rfl
  exact decodes_readBytes rfl hs

/-- A whole number of ticks survives in exact arithmetic. -/
theorem decodes_readDouble {v : ℚ} {k : ℤ} (hk : IsInt64 k) (hv : v = k / 10000)
    (hs : limit ≤ size) :
    Decodes size limit (readDouble id limit)
      (BigEndian.encode 8 (toUInt64 (truncate (id (v * 10000))))) (· = v) := by
  have hcast : truncate (id (v * 10000)) = k := by
    rw [id, hv, div_mul_cancel₀ _ (by norm_num), truncate_intCast]
  rw [hcast]
  refine (decodes_readU64 (toUInt64_lt k) hs).bind_pure ?_
  rintro _ rfl
  rw [toInt64_toUInt64 hk, hv, id, id]

theorem decodes_readOrder {o : Order ℚ} (h : o.Encodable) (hs : limit ≤ size) :
    Decodes size limit (readOrder id limit) (orderBytes id o) (· = o) := by
  obtain ⟨k, hk, hprice⟩ := h.price
  refine (decodes_readString h.orderId hs).bind ?_
  rintro _ rfl
  refine (decodes_readString h.nodeId hs).bind ?_
  rintro _ rfl
  refine (decodes_readU8 o.side.code hs).bind ?_
  rintro _ rfl
  refine (decodes_readDouble hk hprice hs).bind ?_
  rintro _ rfl
  refine (decodes_readU64 (toUInt64_lt o.quantity) hs).bind ?_
  rintro _ rfl
  refine (decodes_readU64 (toUInt64_lt o.remaining) hs).bind ?_
  rintro _ rfl
  refine (decodes_readU64 h.timestamp hs).bind ?_
  rintro _ rfl
  refine (decodes_readU8 _ hs).bind_pure ?_
  rintro _ rfl
  rw [toInt64_toUInt64 h.quantity, toInt64_toUInt64 h.remaining]
  cases o with
  | mk orderId nodeId side price quantity remaining timestamp isCancelled =>
    cases isCancelled <;> rfl

end Checked

/-! ### The reader without checks -/

namespace VectorClock

variable {size limit window : ℕ}

theorem decodes_takeU16 {n : ℕ} (hn : n < 2 ^ 16) (hw : limit ≤ window) (hs : limit ≤ size) :
    Decodes size limit (takeU16 window) (BigEndian.encode 2 n) (· = n) :=
  decodes_number hn (.take (BigEndian.length_encode 2 n) hw hs)

theorem decodes_takeU32 {n : ℕ} (hn : n < 2 ^ 32) (hw : limit ≤ window) (hs : limit ≤ size) :
    Decodes size limit (takeU32 window) (BigEndian.encode 4 n) (· = n) :=
  decodes_number hn (.take (BigEndian.length_encode 4 n) hw hs)

/-- The clock after the assignments of the loop. -/
def setAll (c : VectorClock) (entries : List ((_ : Str) × ℕ)) : VectorClock :=
  entries.foldl (fun c e => c.set e.1 e.2) c

@[simp] theorem nodeId_setAll (c : VectorClock) (entries : List ((_ : Str) × ℕ)) :
    (c.setAll entries).nodeId = c.nodeId := by
  induction entries generalizing c with
  | nil => rfl
  | cons e entries ih => exact ih (c.set e.1 e.2)

/-- An entry that was set wins over what the clock had before. -/
theorem lookup_setAll (c : VectorClock) {entries : List ((_ : Str) × ℕ)} (h : entries.NodupKeys)
    (k : Str) :
    (c.setAll entries).clock.lookup k = (entries.dlookup k).or (c.clock.lookup k) := by
  induction entries generalizing c with
  | nil => simp [setAll]
  | cons e entries ih =>
    obtain ⟨he, hentries⟩ := List.nodupKeys_cons.mp h
    have hset : (c.set e.1 e.2).clock.lookup k = if k = e.1 then some e.2 else c.clock.lookup k :=
      ClockMap.lookup_set ..
    rw [setAll, List.foldl_cons, ← setAll, ih _ hentries, SortedMap.dlookup_cons, hset]
    split_ifs with hk
    · -- The key of `e` does not occur again.
      subst hk
      rw [List.dlookup_eq_none.mpr he, Option.none_or, Option.some_or]
    · rfl

/-- Setting the entries of a clock in a new clock of its owner gives the same map. -/
theorem same_setAll_new (c : VectorClock) : c.Same ((new c.nodeId).setAll c.clock.entries) where
  nodeId := (nodeId_setAll (new c.nodeId) c.clock.entries).symm
  lookup k := by
    rw [lookup_setAll _ c.clock.nodupKeys]
    change c.clock.lookup k = (c.clock.lookup k).or _
    cases hk : c.clock.lookup k with
    | some v => rfl
    | none =>
      -- Only the owner has an entry in the new clock, and it has one in `c` too.
      have hne : k ≠ c.nodeId := by
        rintro rfl
        exact AList.lookup_eq_none.mp hk c.owned
      rw [Option.none_or, new, ClockMap.lookup_set, if_neg hne]
      rfl

theorem decodes_deserializeEntries {entries : List ((_ : Str) × ℕ)} (c : VectorClock)
    (hkeys : ∀ e ∈ entries, Short e.1) (hcounters : ∀ e ∈ entries, e.2 < 2 ^ 64)
    (hw : limit ≤ window) (hs : limit ≤ size) :
    Decodes size limit (deserializeEntries window entries.length c) (entries.flatMap entryBytes)
      (· = c.setAll entries) := by
  induction entries generalizing c with
  | nil => exact .pure rfl
  | cons e entries ih =>
    obtain ⟨hkey, hkeys⟩ := List.forall_mem_cons.mp hkeys
    obtain ⟨hcounter, hcounters⟩ := List.forall_mem_cons.mp hcounters
    rw [List.flatMap_cons, entryBytes, stringBytes, BigEndian.encode_add 4 4,
      ← BigEndian.encode_mod e.2 (le_refl 4)]
    simp only [List.append_assoc]
    refine (decodes_takeU16 hkey hw hs).bind ?_
    rintro _ rfl
    refine (Decodes.take rfl hw hs).bind ?_
    rintro _ rfl
    refine (decodes_takeU32 (Nat.div_lt_of_lt_mul hcounter) hw hs).bind ?_
    rintro _ rfl
    refine (decodes_takeU32 (Nat.mod_lt e.2 (by decide)) hw hs).bind ?_
    rintro _ rfl
    rw [show (256 : ℕ) ^ 4 = 2 ^ 32 by rfl, shiftLeft_or_halves]
    exact ih (c.set e.1 e.2) hkeys hcounters

/-- The bytes of a clock, no more and no less, give the clock back. -/
theorem decodes_deserialize {c : VectorClock} (h : c.Encodable) (hs : limit ≤ size) :
    Decodes size limit (deserialize c.serialize.length) c.serialize c.Same := by
  refine Decodes.position_bind fun start hstart => ?_
  have hsize : start + c.serialize.length ≤ size := hstart.trans hs
  generalize hwindow : start + c.serialize.length = window at hsize
  rw [VectorClock.serialize_eq c, stringBytes]
  simp only [List.append_assoc]
  refine (decodes_takeU16 h.nodeId le_rfl hsize).bind ?_
  rintro _ rfl
  refine (Decodes.take rfl le_rfl hsize).bind ?_
  rintro _ rfl
  refine (decodes_takeU32 h.size le_rfl hsize).bind ?_
  rintro _ rfl
  refine (decodes_deserializeEntries _ h.keys h.counters le_rfl hsize).imp ?_
  rintro _ rfl
  exact same_setAll_new c

end VectorClock

/-! ### Operations and messages -/

section Checked

variable {size : ℕ}

theorem decodes_readOperation {op : Operation ℚ} (h : op.Encodable) :
    Decodes size size (readOperation id size) (operationBytes id op) op.Same := by
  refine (decodes_readU8 op.type.code le_rfl).bind ?_
  rintro _ rfl
  refine (decodes_readOrder h.order le_rfl).bind ?_
  rintro _ rfl
  refine (decodes_readString h.cancelOrderId le_rfl).bind ?_
  rintro _ rfl
  refine (decodes_readString h.originNode le_rfl).bind ?_
  rintro _ rfl
  refine (decodes_readU32 h.clock.length le_rfl).bind ?_
  rintro _ rfl
  refine .check_bind (by simp) ?_
  refine (VectorClock.decodes_deserialize h.clock le_rfl).peek_bind fun clock hclock => ?_
  refine (Decodes.skip rfl).bind fun _ _ => ?_
  refine (decodes_readString h.opId le_rfl).bind_pure ?_
  rintro _ rfl
  exact ⟨rfl, rfl, rfl, rfl, hclock, rfl⟩

/-- The bytes of the sender's clock are read a second time, one by one. -/
theorem decodes_times_readU8 (bytes : List UInt8) :
    Decodes size size (times bytes.length (readU8 size)) bytes fun _ => True := by
  have h : Decodes size size (times bytes.length (readU8 size)) (bytes.flatMap fun b => [b])
      (List.Forall₂ (fun b b' => b' = b) bytes) :=
    .times bytes fun b _ => decodes_readU8 b le_rfl
  rw [List.flatMap_singleton'] at h
  exact h.imp fun _ _ => trivial

theorem Message.decodes_deserialize {m : Message} (h : m.Encodable) :
    Decodes size size (Message.deserialize id size) (m.serialize id) m.Same := by
  rw [Message.serialize_eq]
  refine (decodes_readU8 m.type.code le_rfl).bind ?_
  rintro _ rfl
  -- The length is read and ignored, so it does not matter whether it fits.
  have hlength (n : ℕ) : Decodes size size (readU32 size) (BigEndian.encode 4 n) fun _ => True :=
    (decodes_readBytes (BigEndian.length_encode 4 n) le_rfl).bind_pure fun _ _ => trivial
  refine (hlength _).bind fun _ _ => ?_
  refine (decodes_readString h.senderId le_rfl).bind ?_
  rintro _ rfl
  refine (decodes_readU32 h.senderClock.length le_rfl).bind ?_
  rintro _ rfl
  refine (VectorClock.decodes_deserialize h.senderClock le_rfl).peek_bind fun clock hclock => ?_
  refine (decodes_times_readU8 _).bind fun _ _ => ?_
  refine (decodes_readU32 h.count le_rfl).bind ?_
  rintro _ rfl
  have hoperations : Decodes size size (times m.operations.length (readOperation id size))
      (m.operations.flatMap (operationBytes id)) (List.Forall₂ Operation.Same m.operations) :=
    .times m.operations fun op hop => decodes_readOperation (h.operations op hop)
  exact hoperations.bind_pure fun ops hops => ⟨rfl, rfl, hclock, hops⟩

end Checked

/-- Decoding an encoded message succeeds, gives the message back and reads exactly the bytes it
was encoded to. -/
theorem Message.decode_serialize {m : Message} (h : m.Encodable) (beyond : ℕ → UInt8) :
    ∃ m', m.Same m' ∧ (Message.decode id (m.serialize id) beyond).result = .ok m' ∧
      (Message.decode id (m.serialize id) beyond).pos = (m.serialize id).length ∧
      (Message.decode id (m.serialize id) beyond).Safe (m.serialize id).length := by
  have hdecodes := Message.decodes_deserialize h
    (memory (m.serialize id) beyond) 0 (bytesAt_memory ..) (Nat.zero_add _).le
  rw [Nat.zero_add] at hdecodes
  exact hdecodes

/-- A push of one buy order at 1.0503, from a replica that has merged another one's clock. -/
def samplePush : Message where
  type := .gossipPush
  senderId := [65]
  senderClock := (VectorClock.new [65]).tick.1.merge (VectorClock.new [66]).tick.1
  operations := [{
    type := .addOrder
    order := {
      orderId := [65, 49]
      nodeId := [65]
      side := .buy
      price := 10503 / 10000
      quantity := 100
      remaining := 40
      timestamp := 1 }
    cancelOrderId := []
    originNode := [65]
    clock := (VectorClock.new [65]).tick.1
    opId := [65, 58, 49] }]

theorem Message.decode_serialize_samplePush :
    let data := samplePush.serialize id
    samplePush.Encodable ∧
      ∃ m', samplePush.Same m' ∧ (Message.decode id data fun _ => 0).result = .ok m' ∧
        (Message.decode id data fun _ => 0).pos = data.length ∧
        (Message.decode id data fun _ => 0).Safe data.length := by
  have h : samplePush.Encodable := by
    refine ⟨by decide, ⟨by decide, by decide, by decide, by decide, by decide⟩, by decide, ?_⟩
    refine List.forall_mem_singleton.mpr ⟨⟨by decide, by decide, ⟨10503, by decide, rfl⟩, by decide,
      by decide, by decide⟩, by decide, by decide, ⟨by decide, by decide, by decide, by decide,
        by decide⟩, by decide⟩
  exact ⟨h, Message.decode_serialize h fun _ => 0⟩

end Convergence
