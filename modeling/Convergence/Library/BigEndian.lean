import Mathlib.Algebra.Order.Ring.Nat
import Mathlib.Tactic.Ring

/-!
# Big-endian numbers

Natural numbers as byte strings of a fixed width, most significant byte first.

## Main definitions

* `BigEndian.encode`, `BigEndian.decode`.

## Main results

* `BigEndian.decode_encode`, `BigEndian.encode_add`.
-/

namespace BigEndian

/-- The `w` low bytes of `n`, most significant first. -/
def encode : ℕ → ℕ → List UInt8
  | 0, _ => []
  | w + 1, n => UInt8.ofNat (n / 256 ^ w) :: encode w n

/-- The number a byte string stands for. -/
def decode (bytes : List UInt8) : ℕ := bytes.foldl (fun n b => n * 256 + b.toNat) 0

@[simp] theorem length_encode (w n : ℕ) : (encode w n).length = w := by
  induction w with
  | zero => rfl
  | succ w ih => rw [encode, List.length_cons, ih]

theorem foldl_eq (bytes : List UInt8) (n : ℕ) :
    bytes.foldl (fun n b => n * 256 + b.toNat) n = n * 256 ^ bytes.length + decode bytes := by
  induction bytes generalizing n with
  | nil => simp [decode]
  | cons b bytes ih =>
    rw [decode, List.foldl_cons, List.foldl_cons, ih, ih (0 * 256 + b.toNat), List.length_cons]
    ring

theorem decode_cons (b : UInt8) (bytes : List UInt8) :
    decode (b :: bytes) = b.toNat * 256 ^ bytes.length + decode bytes := by
  rw [decode, List.foldl_cons, foldl_eq, Nat.zero_mul, Nat.zero_add]

/-- Decoding the low bytes of a number gives the number modulo their range. -/
theorem decode_encode (w n : ℕ) : decode (encode w n) = n % 256 ^ w := by
  induction w with
  | zero => simp [encode, decode, Nat.mod_one]
  | succ w ih =>
    have hbyte : (UInt8.ofNat (n / 256 ^ w)).toNat = n / 256 ^ w % 256 := by
      simp [UInt8.toNat_ofNat']
    rw [encode, decode_cons, length_encode, ih, hbyte, pow_succ, Nat.mod_mul, Nat.add_comm,
      Nat.mul_comm]

theorem decode_encode_of_lt {w n : ℕ} (h : n < 256 ^ w) : decode (encode w n) = n := by
  rw [decode_encode, Nat.mod_eq_of_lt h]

/-- Only the low bytes of a number are encoded. -/
theorem encode_mod {w k : ℕ} (n : ℕ) (h : w ≤ k) : encode w (n % 256 ^ k) = encode w n := by
  induction w with
  | zero => rfl
  | succ w ih =>
    have hbyte : n % 256 ^ k / 256 ^ w % 256 = n / 256 ^ w % 256 := by
      obtain ⟨j, rfl⟩ := Nat.exists_eq_add_of_le h
      rw [show w + 1 + j = w + (1 + j) by ring, pow_add, Nat.mod_mul_right_div_self, pow_add,
        pow_one, Nat.mod_mul_right_mod]
    rw [encode, encode, ih (by omega)]
    refine congrArg (· :: _) (UInt8.toNat_inj.mp ?_)
    simpa [UInt8.toNat_ofNat'] using hbyte

/-- A wide number is its high part followed by its low part. -/
theorem encode_add (w k n : ℕ) : encode (w + k) n = encode w (n / 256 ^ k) ++ encode k n := by
  induction w with
  | zero => simp [encode]
  | succ w ih =>
    rw [Nat.succ_add, encode, encode, List.cons_append, ih, Nat.div_div_eq_div_mul, ← pow_add,
      Nat.add_comm w k]

end BigEndian
