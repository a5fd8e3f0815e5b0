import Convergence.Gossip.Bounds
import Convergence.Gossip.Engine
import Convergence.Gossip.RoundTrip

/-!
# Truncated datagrams

The decoder goes by the lengths and counts that it finds, and checks every read but those of a
clock. An encoded message is spanned exactly by its layout, so a strict prefix of it ends before the
layout does, whatever lies behind it, and the decoder fails.

## Main definitions

* `Message.LengthsFit`: the lengths and counts fit their fields.
* `GossipEngine.receiveLoop`: an iteration of `receive_loop`.

## Main results

* `Message.covers_serialize`: the layout spans the encoded message.
* `Message.decode_take`: a strict prefix does not decode.
-/

namespace Convergence

open ByteReader

/-- The strings and the clock of an operation have lengths that fit their prefixes. -/
structure Operation.LengthsFit (op : Operation ℚ) : Prop where
  orderId : Short op.order.orderId
  nodeId : Short op.order.nodeId
  cancelOrderId : Short op.cancelOrderId
  originNode : Short op.originNode
  clock : op.clock.serialize.length < 2 ^ 32
  opId : Short op.opId

/-- The lengths and the count in a message fit their fields. -/
structure Message.LengthsFit (m : Message) : Prop where
  senderId : Short m.senderId
  senderClock : m.senderClock.serialize.length < 2 ^ 32
  count : m.operations.length < 2 ^ 32
  operations : ∀ op ∈ m.operations, op.LengthsFit

/-- What survives the round trip has lengths that fit. -/
theorem Message.Encodable.lengthsFit {m : Message} (h : m.Encodable) : m.LengthsFit where
  senderId := h.senderId
  senderClock := h.senderClock.length
  count := h.count
  operations op hop :=
    have hop := h.operations op hop
    ⟨hop.order.orderId, hop.order.nodeId, hop.cancelOrderId, hop.originNode, hop.clock.length,
      hop.opId⟩

/-! ### Layouts of what is encoded -/

theorem covers_stringBytes {s : Str} (h : Short s) : stringLayout.Covers (stringBytes s) :=
  .counted h (.fixed rfl)

theorem covers_block {bytes : List UInt8} (h : bytes.length < 2 ^ 32) :
    blockLayout.Covers (BigEndian.encode 4 bytes.length ++ bytes) :=
  .counted h (.fixed rfl)

theorem covers_orderBytes (rnd : ℚ → ℚ) {op : Operation ℚ} (h : op.LengthsFit) :
    orderLayout.Covers (orderBytes rnd op.order) := by
  refine (covers_stringBytes h.orderId).andThen ((covers_stringBytes h.nodeId).andThen (.fixed ?_))
  simp only [List.length_append, BigEndian.length_encode, List.length_singleton]

theorem covers_operationBytes (rnd : ℚ → ℚ) {op : Operation ℚ} (h : op.LengthsFit) :
    operationLayout.Covers (operationBytes rnd op) := by
  have hhead : operationHeadLayout.Covers ([op.type.code] ++ (orderBytes rnd op.order ++
      (stringBytes op.cancelOrderId ++ stringBytes op.originNode))) :=
    .andThen (.fixed rfl) (.andThen (covers_orderBytes rnd h)
      (.andThen (covers_stringBytes h.cancelOrderId) (covers_stringBytes h.originNode)))
  have hrest := (covers_block h.clock).andThen (covers_stringBytes h.opId)
  have hbytes : operationBytes rnd op = ([op.type.code] ++ (orderBytes rnd op.order ++
      (stringBytes op.cancelOrderId ++ stringBytes op.originNode))) ++
        (BigEndian.encode 4 op.clock.serialize.length ++ op.clock.serialize ++
          stringBytes op.opId) := by
    simp only [operationBytes, List.append_assoc]
  rw [hbytes]
  exact hhead.andThen hrest

/-- The layout spans the encoded message. -/
theorem Message.covers_serialize (rnd : ℚ → ℚ) {m : Message} (h : m.LengthsFit) :
    messageLayout.Covers (m.serialize rnd) := by
  have hhead : messageHeadLayout.Covers (([m.type.code] ++
      BigEndian.encode 4 (5 + (m.bodyBytes rnd).length)) ++ stringBytes m.senderId) :=
    .andThen (.fixed (by rw [List.length_append, BigEndian.length_encode]; rfl))
      (covers_stringBytes h.senderId)
  have hoperations := Extent.Covers.iterate m.operations fun op hop =>
    covers_operationBytes rnd (h.operations op hop)
  have hbytes : m.serialize rnd = (([m.type.code] ++
      BigEndian.encode 4 (5 + (m.bodyBytes rnd).length)) ++ stringBytes m.senderId) ++
        ((BigEndian.encode 4 m.senderClock.serialize.length ++ m.senderClock.serialize) ++
          (BigEndian.encode 4 m.operations.length ++
            m.operations.flatMap (operationBytes rnd))) := by
    rw [Message.serialize_eq]
    simp only [bodyBytes, List.append_assoc]
  rw [hbytes]
  exact hhead.andThen ((covers_block h.senderClock).andThen (.counted h.count hoperations))

/-! ### Receiving -/

/-- An iteration of `receive_loop`: nothing has been received, or a datagram is decoded and handled;
one that cannot be decoded leaves a line in the log file. -/
def GossipEngine.receiveLoop (rnd : ℚ → ℚ) (e : GossipEngine) (data : List UInt8)
    (beyond : ℕ → UInt8) (senderHost : Str) (senderPort now : ℕ) : GossipEngine × List Datagram :=
  if data = [] then (e, [])
  else
    match (Message.decode rnd data beyond).result with
    | .error _ => (e, [])
    | .ok msg => e.handleMessage msg senderHost senderPort now

/-- **Truncated datagrams.** A strict prefix of an encoded message does not decode, whatever lies
behind it in memory, and a node that receives it stays as it is and sends nothing. -/
theorem Message.decode_take (rnd : ℚ → ℚ) {m : Message} (h : m.LengthsFit) {k : ℕ}
    (hk : k < (m.serialize rnd).length) (beyond : ℕ → UInt8) :
    (∃ error, (Message.decode rnd ((m.serialize rnd).take k) beyond).result = .error error) ∧
      ∀ (e : GossipEngine) (senderHost : Str) (senderPort now : ℕ),
        e.receiveLoop rnd ((m.serialize rnd).take k) beyond senderHost senderPort now =
          (e, []) := by
  have hlength : ((m.serialize rnd).take k).length = k := List.length_take_of_le hk.le
  have hstop := (m.covers_serialize rnd h).lt_stop hk beyond
  obtain ⟨error, herror⟩ := (Message.spans_deserialize rnd).error (Nat.zero_le k) hstop
  have hdecode : (Message.decode rnd ((m.serialize rnd).take k) beyond).result = .error error := by
    rw [Message.decode, hlength]
    exact herror
  refine ⟨⟨error, hdecode⟩, fun e senderHost senderPort now => ?_⟩
  rw [GossipEngine.receiveLoop, hdecode]
  exact ite_self _

/-- The push of one order, cut off behind the count: no operation is left of the one it counts. -/
theorem Message.decode_take_behind_count :
    let data := (samplePush.serialize id).take 45
    (∃ error, (Message.decode id data fun _ => 0).result = .error error) ∧
      ∀ (e : GossipEngine) (senderHost : Str) (senderPort now : ℕ),
        e.receiveLoop id data (fun _ => 0) senderHost senderPort now = (e, []) := by
  have h : samplePush.LengthsFit := by
    refine ⟨by decide, by decide, by decide, ?_⟩
    exact List.forall_mem_singleton.mpr
      ⟨by decide, by decide, by decide, by decide, by decide, by decide⟩
  exact Message.decode_take id h (by decide) fun _ => 0

end Convergence
