import Convergence.Gossip.Message
import Convergence.Library.ByteLayout

/-!
# Reads outside the datagram

Every method of the class `Reader` checks before it reads, and `read_operation` checks that the
bytes of a clock are there before `VectorClock::deserialize` reads them. Two things are not checked:
that a clock ends where the length in front of it says, and, for the clock of the sender, that the
datagram goes on that far. Decoding stays within the datagram if and only if the clocks it comes to
fit, and this only depends on the bytes of the datagram.

## Main definitions

* `stringLayout`, `clockLayout`, `operationLayout`: where a field ends, by the lengths found in it.
* `OperationClockFits`, `ClocksFit`.

## Main results

* `Message.safe_decode_iff`: decoding is in bounds if and only if the clocks fit.
* `not_safe_decode`: a datagram of eleven bytes of which more than eleven are read.
-/

namespace Convergence

open ByteReader

/-! ### Layouts -/

/-- A string with its length. -/
def stringLayout : Extent := .counted 2 .fixed

/-- What `VectorClock::deserialize` reads: the owner and the counted entries. -/
def clockLayout : Extent :=
  stringLayout.andThen (.counted 4 (stringLayout.andThen (.fixed 8)).iterate)

/-- A length and as many bytes. -/
def blockLayout : Extent := .counted 4 .fixed

/-- An order. -/
def orderLayout : Extent := stringLayout.andThen (stringLayout.andThen (.fixed 34))

/-- An operation up to the length of its clock. -/
def operationHeadLayout : Extent :=
  (Extent.fixed 1).andThen (orderLayout.andThen (stringLayout.andThen stringLayout))

/-- An operation. -/
def operationLayout : Extent := operationHeadLayout.andThen (blockLayout.andThen stringLayout)

/-- A message up to the length of the clock of the sender. -/
def messageHeadLayout : Extent := (Extent.fixed 5).andThen stringLayout

/-- A message. -/
def messageLayout : Extent :=
  messageHeadLayout.andThen (blockLayout.andThen (.counted 4 operationLayout.iterate))

/-- A block with a clock in it, at a position: the clock ends in the block. -/
def ClockInBlock (mem : ℕ → UInt8) (pos : ℕ) : Prop :=
  clockLayout.stop mem (pos + 4) ≤ blockLayout.stop mem pos

/-- An operation at a position: if its clock block lies below `size`, then the clock ends in it. -/
def OperationClockFits (size : ℕ) (mem : ℕ → UInt8) (pos : ℕ) : Prop :=
  blockLayout.stop mem (operationHeadLayout.stop mem pos) ≤ size →
    ClockInBlock mem (operationHeadLayout.stop mem pos)

/-- The clocks of a message in the first `size` bytes of a memory fit: as far as the message goes
on, the clock of the sender ends in its block and below `size`, and every operation has a clock
that fits. -/
def ClocksFitIn (size : ℕ) (mem : ℕ → UInt8) : Prop :=
  let block := messageHeadLayout.stop mem 0
  let next := blockLayout.stop mem block
  block + 4 ≤ size →
    (clockLayout.stop mem (block + 4) ≤ size ∧ ClockInBlock mem block) ∧
      (next + 4 ≤ size →
        EveryTurn size (operationLayout.stop mem) (OperationClockFits size mem) (number mem next 4)
          (next + 4))

/-- The clocks of a datagram fit. -/
def ClocksFit (data : List UInt8) : Prop := ClocksFitIn data.length (memory data fun _ => 0)

instance (size : ℕ) (mem : ℕ → UInt8) : DecidablePred (OperationClockFits size mem) :=
  fun _ => inferInstanceAs (Decidable (_ ≤ _ → _ ≤ _))

instance (data : List UInt8) : Decidable (ClocksFit data) :=
  inferInstanceAs (Decidable (_ ≤ _ → (_ ≤ _ ∧ _ ≤ _) ∧ (_ ≤ _ → EveryTurn _ _ _ _ _)))

/-! ### Checked readers -/

variable {mem mem' : ℕ → UInt8} {pos size window : ℕ}

theorem spans_readBytes (k : ℕ) :
    Spans size mem pos (readBytes size k) (pos + k) True (· = bytesAt mem pos k) :=
  (Spans.check_bind le_rfl fun h => .take h).congr_safe (by simp)

theorem spans_readU8 : Spans size mem pos (readU8 size) (pos + 1) True fun _ => True :=
  (spans_readBytes 1).bind_pure fun _ _ => trivial

theorem spans_readU16 : Spans size mem pos (readU16 size) (pos + 2) True (· = number mem pos 2) :=
  (spans_readBytes 2).bind_pure fun _ h => congrArg BigEndian.decode h

theorem spans_readU32 : Spans size mem pos (readU32 size) (pos + 4) True (· = number mem pos 4) :=
  (spans_readBytes 4).bind_pure fun _ h => congrArg BigEndian.decode h

theorem spans_readU64 : Spans size mem pos (readU64 size) (pos + 8) True fun _ => True :=
  spans_readU32.bind_safe (by omega) fun _ _ => spans_readU32.bind_pure fun _ _ => trivial

theorem spans_readString :
    Spans size mem pos (readString size) (stringLayout.stop mem pos) True fun _ => True := by
  refine spans_readU16.bind_safe (Nat.le_add_right _ _) ?_
  rintro _ rfl
  exact (spans_readBytes _).imp fun _ _ => trivial

theorem spans_readDouble (rnd : ℚ → ℚ) :
    Spans size mem pos (readDouble rnd size) (pos + 8) True fun _ => True :=
  spans_readU64.bind_pure fun _ _ => trivial

theorem spans_readOrder (rnd : ℚ → ℚ) :
    Spans size mem pos (readOrder rnd size) (orderLayout.stop mem pos) True fun _ => True := by
  refine spans_readString.bind_safe ((stringLayout.andThen (.fixed 34)).le mem _) fun _ _ => ?_
  refine spans_readString.bind_safe ((Extent.fixed 34).le mem _) fun _ _ => ?_
  change Spans size mem _ _ (_ + 1 + 8 + 8 + 8 + 8 + 1) True _
  refine spans_readU8.bind_safe (by omega) fun _ _ => ?_
  refine (spans_readDouble rnd).bind_safe (by omega) fun _ _ => ?_
  refine spans_readU64.bind_safe (by omega) fun _ _ => ?_
  refine spans_readU64.bind_safe (by omega) fun _ _ => ?_
  refine spans_readU64.bind_safe (by omega) fun _ _ => ?_
  exact spans_readU8.bind_pure fun _ _ => trivial

/-! ### The reader without checks -/

namespace VectorClock

theorem walks_takeU16 :
    Walks size window mem pos (takeU16 window) (pos + 2) (· = number mem pos 2) :=
  (Walks.take 2).bind_pure fun _ h => congrArg BigEndian.decode h

theorem walks_takeU32 :
    Walks size window mem pos (takeU32 window) (pos + 4) (· = number mem pos 4) :=
  (Walks.take 4).bind_pure fun _ h => congrArg BigEndian.decode h

theorem walks_deserializeEntries (count : ℕ) (c : VectorClock) :
    Walks size window mem pos (deserializeEntries window count c)
      (((stringLayout.andThen (.fixed 8)).iterate count).stop mem pos) fun _ => True := by
  induction count generalizing pos c with
  | zero => exact .pure trivial
  | succ count ih =>
    refine walks_takeU16.bind ?_
    rintro _ rfl
    refine (Walks.take _).bind fun key _ => ?_
    refine walks_takeU32.bind fun high _ => ?_
    refine walks_takeU32.bind fun low _ => ?_
    exact ih (c.set key (high <<< 32 ||| low))

/-- The reader of a clock goes where the lengths in the clock lead it. -/
theorem walks_deserialize (len : ℕ) :
    Walks size (pos + len) mem pos (deserialize len) (clockLayout.stop mem pos) fun _ => True := by
  have hposition : Walks size (pos + len) mem pos position pos (· = pos) :=
    ⟨le_rfl, iff_of_true (fun _ h => absurd h List.not_mem_nil) (Or.inl rfl), pos, rfl, rfl, rfl⟩
  refine hposition.bind ?_
  rintro _ rfl
  refine walks_takeU16.bind ?_
  rintro _ rfl
  refine (Walks.take _).bind fun nodeId _ => ?_
  refine walks_takeU32.bind ?_
  rintro _ rfl
  exact walks_deserializeEntries _ (new nodeId)

theorem lt_clockLayout_stop (mem : ℕ → UInt8) (pos : ℕ) : pos < clockLayout.stop mem pos := by
  have hstring := stringLayout.le mem pos
  have hentries := ((stringLayout.andThen (.fixed 8)).iterate
    (number mem (stringLayout.stop mem pos) 4)).le mem (stringLayout.stop mem pos + 4)
  change pos < Extent.stop _ mem (stringLayout.stop mem pos + 4)
  omega

end VectorClock

/-- The clock of a block is read with the length of the block for a window. -/
theorem spans_peek_clock :
    Spans size mem (pos + 4) (peek (VectorClock.deserialize (number mem pos 4))) (pos + 4)
      (clockLayout.stop mem (pos + 4) ≤ size ∧ ClockInBlock mem pos) fun _ => True :=
  .peek (VectorClock.walks_deserialize _) (VectorClock.lt_clockLayout_stop ..)

/-! ### Operations and messages -/

/-- The clock of an operation is only read when its block was found to lie below `size`. -/
theorem spans_readOperation (rnd : ℚ → ℚ) :
    Spans size mem pos (readOperation rnd size) (operationLayout.stop mem pos)
      (OperationClockFits size mem pos) fun _ => True := by
  have horder := orderLayout.le mem (pos + 1)
  have hcancel := stringLayout.le mem (orderLayout.stop mem (pos + 1))
  have horigin := stringLayout.le mem (stringLayout.stop mem (orderLayout.stop mem (pos + 1)))
  have hhead : stringLayout.stop mem (stringLayout.stop mem (orderLayout.stop mem (pos + 1))) =
      operationHeadLayout.stop mem pos := rfl
  have hblock : operationHeadLayout.stop mem pos + 4 ≤
      blockLayout.stop mem (operationHeadLayout.stop mem pos) := Nat.le_add_right _ _
  have hopId : blockLayout.stop mem (operationHeadLayout.stop mem pos) ≤
      operationLayout.stop mem pos := stringLayout.le mem _
  -- When the reader stops before the clock, the block of the clock is past `size`.
  have hearly {mid : ℕ} (hmid : mid ≤ blockLayout.stop mem (operationHeadLayout.stop mem pos))
      (hlt : size < mid) : OperationClockFits size mem pos :=
    fun h => absurd (hlt.trans_le hmid) h.not_gt
  refine spans_readU8.bind_right (by omega) (hearly (by omega)) fun _ _ => ?_
  refine (spans_readOrder rnd).bind_right (by omega) (hearly (by omega)) fun _ _ => ?_
  refine spans_readString.bind_right (by omega) (hearly (by omega)) fun _ _ => ?_
  refine spans_readString.bind_right (by omega) (hearly (by omega)) fun _ _ => ?_
  refine spans_readU32.bind_right (by omega) (hearly (by omega)) ?_
  rintro _ rfl
  refine Spans.check_bind hopId fun hcheck => ?_
  have hinblock {block : ℕ} (h : blockLayout.stop mem block ≤ size) :
      clockLayout.stop mem (block + 4) ≤ size ∧ ClockInBlock mem block ↔ ClockInBlock mem block :=
    and_iff_right_of_imp fun hclock => le_trans hclock h
  refine (spans_peek_clock.congr_safe (hinblock hcheck)).bind_left (by omega) fun clock _ => ?_
  refine (Spans.skip hcheck).bind_safe hopId fun _ _ => ?_
  exact spans_readString.bind_pure fun _ _ => trivial

theorem spans_times_readU8 (k : ℕ) :
    Spans size mem pos (times k (readU8 size)) (pos + k) True fun _ => True := by
  induction k generalizing pos with
  | zero => exact .pure trivial
  | succ k ih =>
    rw [show pos + (k + 1) = pos + 1 + k by omega]
    refine spans_readU8.bind_safe (Nat.le_add_right _ k) fun _ _ => ?_
    exact ih.bind_pure fun _ _ => trivial

/-- The clock of the sender is read as soon as its length is. -/
theorem Message.spans_deserialize (rnd : ℚ → ℚ) :
    Spans size mem 0 (Message.deserialize rnd size) (messageLayout.stop mem 0)
      (ClocksFitIn size mem) fun _ => True := by
  have hhead : 5 ≤ messageHeadLayout.stop mem 0 := stringLayout.le mem 5
  have hsender : stringLayout.stop mem (0 + 1 + 4) = messageHeadLayout.stop mem 0 := rfl
  have hblock : blockLayout.stop mem (messageHeadLayout.stop mem 0) =
    stringLayout.stop mem (0 + 1 + 4) + 4 + number mem (stringLayout.stop mem (0 + 1 + 4)) 4 := rfl
  have hoperations : blockLayout.stop mem (messageHeadLayout.stop mem 0) + 4 ≤
    messageLayout.stop mem 0 := (operationLayout.iterate _).le mem _
  -- When the reader stops before the clock, there is nothing to show.
  have hearly {mid : ℕ} (hmid : mid ≤ messageHeadLayout.stop mem 0 + 4) (hlt : size < mid) :
      ClocksFitIn size mem := fun h => absurd (hlt.trans_le hmid) h.not_gt
  refine spans_readU8.bind_right (by omega) (hearly (by omega)) fun type _ => ?_
  refine spans_readU32.bind_right (by omega) (hearly (by omega)) fun _ _ => ?_
  refine spans_readString.bind_right (by omega) (hearly (by omega)) fun senderId _ => ?_
  refine spans_readU32.bind_guard (by omega) ?_
  rintro _ rfl
  refine spans_peek_clock.bind_and (by omega) (fun hlt h => by omega) fun senderClock _ => ?_
  refine (spans_times_readU8 _).bind_right (by omega) (fun hlt h => by omega) fun _ _ => ?_
  refine spans_readU32.bind_guard hoperations ?_
  rintro _ rfl
  exact (Spans.times _ fun _ => spans_readOperation rnd).bind_pure fun _ _ => trivial

/-! ### What lies behind the datagram -/

theorem OperationClockFits.of_agree (h : ∀ i < size, mem i = mem' i)
    (hfits : OperationClockFits size mem pos) : OperationClockFits size mem' pos := by
  intro hblock
  have hsymm : ∀ i < size, mem' i = mem i := fun i hi => (h i hi).symm
  have hhead : operationHeadLayout.stop mem pos = operationHeadLayout.stop mem' pos :=
    operationHeadLayout.stop_eq_of_agree hsymm ((blockLayout.le mem' _).trans hblock)
  rw [OperationClockFits, hhead] at hfits
  have heq := blockLayout.stop_eq_of_agree hsymm hblock
  rw [heq] at hfits
  have hclock : clockLayout.stop mem _ ≤ _ := hfits hblock
  rw [heq] at hclock
  rw [ClockInBlock, clockLayout.stop_eq_of_agree h (hclock.trans hblock)]
  exact hclock

/-- Only the bytes of the datagram decide whether its clocks fit. -/
theorem ClocksFitIn.of_agree (h : ∀ i < size, mem i = mem' i) (hfits : ClocksFitIn size mem) :
    ClocksFitIn size mem' := by
  intro hblock
  have hsymm : ∀ i < size, mem' i = mem i := fun i hi => (h i hi).symm
  have hhead : messageHeadLayout.stop mem 0 = messageHeadLayout.stop mem' 0 :=
    messageHeadLayout.stop_eq_of_agree hsymm (by omega)
  have hnext : blockLayout.stop mem (messageHeadLayout.stop mem' 0) =
      blockLayout.stop mem' (messageHeadLayout.stop mem' 0) :=
    congrArg (_ + 4 + ·) (number_congr fun i hi => h i (by omega))
  rw [ClocksFitIn, hhead, hnext] at hfits
  obtain ⟨⟨hclock, hin⟩, hoperations⟩ := hfits hblock
  rw [ClockInBlock, hnext] at hin
  refine ⟨?_, fun hcount => ?_⟩
  · rw [ClockInBlock, clockLayout.stop_eq_of_agree h hclock]
    exact ⟨hclock, hin⟩
  · rw [← number_congr fun i hi => h i (by omega)]
    exact (hoperations hcount).imp
      (fun pos hle => (operationLayout.stop_eq_of_agree hsymm hle).symm)
      fun pos => OperationClockFits.of_agree h

/-- Decoding a datagram reads nothing outside of it, and no clock outside of its block, if and only
if the clocks fit. -/
theorem Message.safe_decode_iff (rnd : ℚ → ℚ) (data : List UInt8) (beyond : ℕ → UInt8) :
    (Message.decode rnd data beyond).Safe data.length ↔ ClocksFit data := by
  have hagree : ∀ i < data.length, memory data beyond i = memory data (fun _ => 0) i := by
    intro i hi
    simp [memory, hi]
  rw [Message.decode, (Message.spans_deserialize rnd).safe (Nat.zero_le _)]
  exact ⟨.of_agree hagree, .of_agree fun i hi => (hagree i hi).symm⟩

/-- A push from an empty sender id that announces a clock of no bytes and ends there. -/
def truncatedPush : List UInt8 := [1, 0, 0, 0, 0, 0, 0, 0, 0, 0, 0]

theorem not_safe_decode :
    ¬ ∀ (rnd : ℚ → ℚ) (data : List UInt8) (beyond : ℕ → UInt8),
      (Message.decode rnd data beyond).Safe data.length := by
  intro h
  exact absurd (h id truncatedPush fun _ => 0) (by decide)

end Convergence
