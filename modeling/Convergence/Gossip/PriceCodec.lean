import Convergence.Gossip.RoundTrip
import Convergence.Library.Binary64

/-!
# Prices on the wire

A price of `n` ticks of 1/10000 is stored as the binary64 number next to `n / 10000`. `write_double`
multiplies it by 10000 and truncates. The stored price may lie below `n / 10000`, and when the
product is rounded to a number below `n`, the truncation loses a tick. Whether this happens depends
on the mantissa of `n`, the integer `n * 2 ^ s` with 53 bits, and on what the division by 10000
leaves over.

## Main definitions

* `KeepsTick`: the residues for which no tick is lost.
* `relay`: the price after a number of hops.

## Main results

* `writeDouble_eq_iff`: the tick that is written is the tick that was stored.
* `price_survives_iff`: a price survives every number of hops if and only if its ticks are kept.
-/

namespace Convergence

open ByteReader

/-- With `b + 1` the number of bits of `n` and `ρ` the rest of its scaled mantissa modulo 10000: the
stored price has an exponent smaller than usual, or the product is not rounded below `n`. With 53
bits there is no place behind the point, so the product must not be rounded above `n` either. -/
def KeepsTick (n : ℕ) : Prop :=
  let b := Nat.log 2 n
  let ρ := n * 2 ^ (65 - b) % 10000
  n * 8192 < 10000 * 2 ^ b ∨
    b < 52 ∧ (ρ ≤ 4096 ∨ 5000 ≤ ρ) ∨
      b = 52 ∧ (ρ < 4096 ∨ 5904 < ρ ∨ (ρ = 4096 ∨ ρ = 5904) ∧ Even n)

instance : DecidablePred KeepsTick :=
  fun _ => inferInstanceAs (Decidable (_ ∨ (_ ∧ (_ ∨ _)) ∨ (_ ∧ (_ ∨ _ ∨ (_ ∨ _) ∧ _))))

/-- What `write_double` writes for the price that is stored for `n` ticks. -/
def writtenTicks (n : ℕ) : ℤ := truncate (Binary64.round (Binary64.round (n / 10000) * 10000))

/-! ### Mantissas -/

section Mantissa

variable {k : ℤ} {s : ℕ}

/-- The rounded product, when the mantissa of the quotient is `k * 2 ^ c / 10000`. -/
theorem round_product {q : ℤ} (c : ℕ) (hlo : 2 ^ 52 * 10000 ≤ k * 2 ^ c)
    (hhi : k * 2 ^ c < 2 ^ 53 * 10000)
    (hq : Binary64.roundEven (((k * 2 ^ c : ℤ) : ℚ) / (10000 : ℤ)) = q)
    (hqlo : 2 ^ 52 * 2 ^ c ≤ q * 10000) (hqhi : q * 10000 < 2 ^ 53 * 2 ^ c) :
    Binary64.round (Binary64.round (k / 2 ^ s / 10000) * 10000) =
      Binary64.roundEven (((q * 10000 : ℤ) : ℚ) / ((2 ^ c : ℤ) : ℚ)) / 2 ^ s := by
  have hquotient : (k / 2 ^ s / 10000 : ℚ) =
      ((k * 2 ^ c : ℤ) : ℚ) / (10000 : ℤ) / 2 ^ (s + c) := by
    push_cast
    rw [pow_add]
    field_simp
  have hproduct : ((q : ℚ) / 2 ^ (s + c) * 10000) =
      ((q * 10000 : ℤ) : ℚ) / ((2 ^ c : ℤ) : ℚ) / 2 ^ s := by
    push_cast
    rw [pow_add]
    field_simp
  rw [hquotient, Binary64.round_div_two_pow, hq, hproduct, Binary64.round_div_two_pow]
  · rw [le_div_iff₀ (by positivity)]
    exact_mod_cast hqlo
  · rw [div_lt_iff₀ (by positivity)]
    exact_mod_cast hqhi
  · rw [le_div_iff₀ (by norm_num)]
    exact_mod_cast hlo
  · rw [div_lt_iff₀ (by norm_num)]
    exact_mod_cast hhi

/-- In the lower part of a binade the quotient has one bit more behind the point, and the product is
rounded to the mantissa that was stored. -/
theorem round_product_of_low (hk : 2 ^ 52 ≤ k) (hlow : k * 8192 < 10000 * 2 ^ 52) :
    Binary64.round (Binary64.round (k / 2 ^ s / 10000) * 10000) = k / 2 ^ s := by
  obtain ⟨q, hq⟩ : ∃ q, Binary64.roundEven (((k * 2 ^ 14 : ℤ) : ℚ) / (10000 : ℤ)) = q := ⟨_, rfl⟩
  have hqspec := (Binary64.roundEven_div_eq_iff (by norm_num)).mp hq
  have hround : Binary64.roundEven (((q * 10000 : ℤ) : ℚ) / ((2 ^ 14 : ℤ) : ℚ)) = k :=
    (Binary64.roundEven_div_eq_iff (by norm_num)).mpr (Or.inl (by omega))
  rw [round_product 14 (by omega) (by omega) hq (by omega) (by omega), hround]

/-- The quotient, times 10000. It is never halfway between two integers, since `k * 2 ^ 13` is
divisible by 16. -/
theorem roundEven_quotient {q ρ : ℤ} (hρ : k * 2 ^ 13 % 10000 = ρ)
    (hq : Binary64.roundEven (((k * 2 ^ 13 : ℤ) : ℚ) / (10000 : ℤ)) = q) :
    ρ < 5000 ∧ q * 10000 = k * 2 ^ 13 - ρ ∨ 5000 < ρ ∧ q * 10000 = k * 2 ^ 13 + (10000 - ρ) := by
  have hqspec := (Binary64.roundEven_div_eq_iff (by norm_num)).mp hq
  have hdiv := Int.mul_ediv_add_emod (k * 2 ^ 13) 10000
  rw [hρ] at hdiv
  omega

/-- Rounding to a multiple of `2 ^ 13`, at a distance `ε` from one. -/
theorem roundEven_near {a ε r : ℤ} (ha : a = k * 2 ^ 13 + ε) (hlo : -5000 ≤ ε) (hhi : ε ≤ 5000)
    (hr : Binary64.roundEven ((a : ℚ) / ((2 ^ 13 : ℤ) : ℚ)) = r) :
    k - 1 ≤ r ∧ r ≤ k + 1 ∧ (k ≤ r ↔ -4096 < ε ∨ ε = -4096 ∧ k % 2 = 0) ∧
      (r ≤ k ↔ ε < 4096 ∨ ε = 4096 ∧ k % 2 = 0) := by
  have hspec := (Binary64.roundEven_div_eq_iff (by norm_num)).mp hr
  rw [Int.even_iff, ha] at hspec
  rcases hspec with ⟨hbelow, habove⟩ | ⟨htie | htie, heven⟩ <;> omega

/-- In the upper part the product is rounded to the mantissa or to one of its neighbours. Which one
is decided by the residue, and on a tie by parity. -/
theorem round_product_of_high (hk : k < 2 ^ 53) (hhigh : 10000 * 2 ^ 52 ≤ k * 8192) {ρ : ℤ}
    (hρ : k * 2 ^ 13 % 10000 = ρ) :
    ∃ r : ℤ, Binary64.round (Binary64.round (k / 2 ^ s / 10000) * 10000) = r / 2 ^ s ∧
      k - 1 ≤ r ∧ r ≤ k + 1 ∧ (k % 2 = 0 → (k ≤ r ↔ ρ ≤ 4096 ∨ 5000 ≤ ρ)) ∧
      (r = k ↔ ρ < 4096 ∨ 5904 < ρ ∨ (ρ = 4096 ∨ ρ = 5904) ∧ k % 2 = 0) := by
  obtain ⟨q, hq⟩ : ∃ q, Binary64.roundEven (((k * 2 ^ 13 : ℤ) : ℚ) / (10000 : ℤ)) = q := ⟨_, rfl⟩
  obtain ⟨r, hr⟩ : ∃ r, Binary64.roundEven (((q * 10000 : ℤ) : ℚ) / ((2 ^ 13 : ℤ) : ℚ)) = r :=
    ⟨_, rfl⟩
  have hlt := Int.emod_lt_of_pos (k * 2 ^ 13) (show (0 : ℤ) < 10000 by norm_num)
  have hnonneg := Int.emod_nonneg (k * 2 ^ 13) (show (10000 : ℤ) ≠ 0 by norm_num)
  rw [hρ] at hlt hnonneg
  have hquotient := roundEven_quotient hρ hq
  refine ⟨r, ?_, ?_⟩
  · rw [round_product 13 (by omega) (by omega) hq (by omega) (by omega), hr]
  rcases hquotient with ⟨hlow, hproduct⟩ | ⟨hhigh, hproduct⟩
  · obtain ⟨hlower, hupper, hle, hge⟩ :=
      roundEven_near (show q * 10000 = k * 2 ^ 13 + -ρ by omega) (by omega) (by omega) hr
    refine ⟨hlower, hupper, fun heven => ?_, ?_⟩
    · rw [hle]
      clear * - hlow heven
      omega
    · rw [le_antisymm_iff, hge, hle]
      clear * - hlow hnonneg
      omega
  · obtain ⟨hlower, hupper, hle, hge⟩ := roundEven_near hproduct (by omega) (by omega) hr
    refine ⟨hlower, hupper, fun heven => ?_, ?_⟩
    · exact iff_of_true (hle.mpr (Or.inl (by omega))) (Or.inr hhigh.le)
    · rw [le_antisymm_iff, hge, hle]
      clear * - hhigh hlt
      omega

end Mantissa

/-! ### The tick that is written -/

theorem truncate_div_two_pow {r : ℤ} (hr : 0 ≤ r) (s : ℕ) : truncate (r / 2 ^ s) = r / 2 ^ s := by
  have hnonneg : (0 : ℚ) ≤ r / 2 ^ s := div_nonneg (by exact_mod_cast hr) (by positivity)
  rw [truncate, if_pos hnonneg]
  exact_mod_cast Rat.floor_intCast_div_natCast r (2 ^ s)

/-- The condition on `n` in terms of its mantissa. -/
theorem keepsTick_iff {n s : ℕ} (hs : Nat.log 2 n + s = 52) :
    KeepsTick n ↔ n * 2 ^ s * 8192 < 10000 * 2 ^ 52 ∨
      0 < s ∧ (n * 2 ^ s * 2 ^ 13 % 10000 ≤ 4096 ∨ 5000 ≤ n * 2 ^ s * 2 ^ 13 % 10000) ∨
        s = 0 ∧ (n * 2 ^ s * 2 ^ 13 % 10000 < 4096 ∨ 5904 < n * 2 ^ s * 2 ^ 13 % 10000 ∨
          (n * 2 ^ s * 2 ^ 13 % 10000 = 4096 ∨ n * 2 ^ s * 2 ^ 13 % 10000 = 5904) ∧ n % 2 = 0) := by
  have hlow : n * 8192 < 10000 * 2 ^ Nat.log 2 n ↔ n * 2 ^ s * 8192 < 10000 * 2 ^ 52 := by
    rw [← hs, pow_add, ← Nat.mul_assoc 10000, Nat.mul_right_comm n]
    exact (Nat.mul_lt_mul_right (by positivity)).symm
  have hresidue : n * 2 ^ (65 - Nat.log 2 n) = n * 2 ^ s * 2 ^ 13 := by
    rw [show 65 - Nat.log 2 n = s + 13 by omega, pow_add, Nat.mul_assoc]
  rw [KeepsTick, hlow, hresidue, Nat.even_iff, show Nat.log 2 n < 52 ↔ 0 < s by omega,
    show Nat.log 2 n = 52 ↔ s = 0 by omega]

/-- Dropping the `s` places behind the point of a neighbour of `n * 2 ^ s`. -/
theorem ediv_two_pow_eq_iff {n r : ℤ} {s : ℕ} (hlower : n * 2 ^ s - 1 ≤ r)
    (hupper : r ≤ n * 2 ^ s + 1) :
    r / 2 ^ s = n ↔ n * 2 ^ s ≤ r ∧ (s = 0 → r = n * 2 ^ s) := by
  have hpow : (0 : ℤ) < 2 ^ s := by positivity
  rw [Int.ediv_eq_iff_of_pos hpow]
  refine and_congr_right fun hle => ?_
  rcases Nat.eq_zero_or_pos s with rfl | hs
  · rw [pow_zero] at hupper hle ⊢
    omega
  · have hone : (1 : ℤ) < 2 ^ s := one_lt_pow₀ (by norm_num) hs.ne'
    exact iff_of_true (by linarith) fun h => absurd h hs.ne'

theorem ediv_two_pow_mem {n r : ℤ} {s : ℕ} (hn : 0 < n) (hlower : n * 2 ^ s - 1 ≤ r)
    (hupper : r ≤ n * 2 ^ s + 1) : 0 ≤ r / 2 ^ s ∧ r / 2 ^ s ≤ n + 1 := by
  have hpow : (0 : ℤ) < 2 ^ s := by positivity
  have hpos : 0 < n * 2 ^ s := mul_pos hn hpow
  refine ⟨Int.ediv_nonneg (by linarith) hpow.le, ?_⟩
  refine Int.lt_add_one_iff.mp ((Int.ediv_lt_iff_lt_mul hpow).mpr ?_)
  linarith

theorem writtenTicks_spec {n : ℕ} (hpos : 0 < n) (hlt : n < 2 ^ 53) :
    0 ≤ writtenTicks n ∧ writtenTicks n ≤ n + 1 ∧ (writtenTicks n = n ↔ KeepsTick n) := by
  obtain ⟨hlo, hhi⟩ := Binary64.mantissa_bounds hpos hlt
  have hlog : Nat.log 2 n < 53 := Nat.log_lt_of_lt_pow hpos.ne' hlt
  rw [keepsTick_iff (show Nat.log 2 n + (52 - Nat.log 2 n) = 52 by omega)]
  generalize 52 - Nat.log 2 n = s at hlo hhi
  obtain ⟨k, hk⟩ : ∃ k, n * 2 ^ s = k := ⟨_, rfl⟩
  have hkint : (n : ℤ) * 2 ^ s = k := by exact_mod_cast hk
  have hn : (n : ℚ) = (k : ℤ) / 2 ^ s := by
    rw [eq_div_iff (by positivity)]
    exact_mod_cast hk
  rw [hk] at hlo hhi ⊢
  rw [writtenTicks, hn]
  rcases lt_or_ge (k * 8192) (10000 * 2 ^ 52) with hlow | hhigh
  · rw [round_product_of_low (by omega) (by omega), ← hn]
    have hcast : truncate (n : ℚ) = n := truncate_intCast n
    rw [hcast]
    exact ⟨by omega, by omega, iff_of_true rfl (Or.inl hlow)⟩
  obtain ⟨ρ, hρ⟩ : ∃ ρ, k * 2 ^ 13 % 10000 = ρ := ⟨_, rfl⟩
  obtain ⟨r, hround, hlower, hupper, hle, heq⟩ :=
    round_product_of_high (k := k) (s := s) (ρ := ρ) (by omega) (by omega) (by exact_mod_cast hρ)
  have hrpos : 0 ≤ r := by omega
  rw [hround, truncate_div_two_pow hrpos, hρ]
  rw [← hkint] at hlower hupper
  obtain ⟨hnonneg, hbound⟩ := ediv_two_pow_mem (by omega) hlower hupper
  refine ⟨hnonneg, hbound, ?_⟩
  rw [ediv_two_pow_eq_iff hlower hupper, hkint]
  rcases Nat.eq_zero_or_pos s with rfl | hs
  · -- There is no place behind the point: the mantissa is `n`, and must not change.
    rw [pow_zero, Nat.mul_one] at hk
    subst hk
    have hsame : (n : ℤ) ≤ r ∧ (0 = 0 → r = n) ↔ r = n :=
      ⟨fun h => h.2 rfl, fun h => ⟨h.ge, fun _ => h⟩⟩
    rw [hsame, heq]
    clear * - hhigh
    omega
  · -- The mantissa is even, and only a number below it is truncated to another tick.
    have heven : (k : ℤ) % 2 = 0 := by
      rw [← hkint, ← Nat.succ_pred_eq_of_pos hs, pow_succ, ← mul_assoc]
      exact Int.mul_emod_left _ 2
    rw [and_iff_left fun h => absurd h hs.ne', hle heven]
    clear * - hhigh hs
    omega

/-! ### Hops -/

/-- A hop: the price that the receiver of a price reads. -/
def hop (rnd : ℚ → ℚ) (v : ℚ) : Except String ℚ :=
  let buf := writeDouble rnd [] v
  (readDouble rnd buf.length (memory buf fun _ => 0) 0).result

/-- The price after a number of hops. -/
def relay (rnd : ℚ → ℚ) : ℕ → ℚ → Except String ℚ
  | 0, v => .ok v
  | hops + 1, v => hop rnd v >>= relay rnd hops

/-- `read_double` divides what was written by 10000, with a rounding. -/
theorem hop_eq {v : ℚ} {n : ℕ} (hpos : 0 < n) (hlt : n < 2 ^ 53)
    (hv : ∀ buf, writeDouble Binary64.round buf v = writeU64 buf n) :
    hop Binary64.round v = .ok (Binary64.round (n / 10000)) := by
  have hcast : ((toInt64 n : ℤ) : ℚ) = n := by
    rw [toInt64, if_pos (by omega)]
    rfl
  have hdecodes : Decodes 8 8 (readDouble Binary64.round 8) (BigEndian.encode 8 n)
      (· = Binary64.round (n / 10000)) := by
    refine (decodes_readU64 (by omega) le_rfl).bind_pure ?_
    rintro _ rfl
    rw [hcast, Binary64.round_natCast hpos hlt]
  have hmem := bytesAt_memory (BigEndian.encode 8 n) fun _ => 0
  obtain ⟨_, rfl, hok, -, -⟩ := hdecodes _ 0 hmem (by simp)
  rw [hop, hv, writeU64_eq, List.nil_append, BigEndian.length_encode]
  exact hok

theorem relay_eq {n : ℕ} (hpos : 0 < n) (hlt : n < 2 ^ 53)
    (hwrite : ∀ buf, writeDouble Binary64.round buf (Binary64.round (n / 10000)) = writeU64 buf n)
    (hops : ℕ) :
    relay Binary64.round hops (Binary64.round (n / 10000)) = .ok (Binary64.round (n / 10000)) := by
  induction hops with
  | zero => rfl
  | succ hops ih =>
    rw [relay, hop_eq hpos hlt hwrite]
    exact ih

/-- What is written is `n` if and only if the tick is. -/
theorem writeDouble_eq_iff {n : ℕ} (hpos : 0 < n) (hlt : n < 2 ^ 53) (buf : List UInt8) :
    writeDouble Binary64.round buf (Binary64.round (n / 10000)) = writeU64 buf n ↔ KeepsTick n := by
  obtain ⟨hlo, hhi, hkeeps⟩ := writtenTicks_spec hpos hlt
  rw [← hkeeps, writeDouble, writeU64_eq, writeU64_eq, List.append_right_inj, ← writtenTicks]
  constructor
  · intro h
    have hdecode := congrArg BigEndian.decode h
    rw [BigEndian.decode_encode_of_lt (toUInt64_lt _), BigEndian.decode_encode_of_lt (by omega),
      toUInt64] at hdecode
    omega
  · intro h
    rw [h, toUInt64, Int.emod_eq_of_lt (by omega) (by omega), Int.toNat_natCast]

/-- A price of `n` ticks is written as `n`, by its origin and by every replica however many hops
away, if and only if the condition on `n` holds. -/
theorem price_survives_iff {n : ℕ} (hpos : 0 < n) (hlt : n < 2 ^ 53) :
    ((∀ buf, writeDouble Binary64.round buf (Binary64.round (n / 10000)) = writeU64 buf n) ∧
      ∀ hops, relay Binary64.round hops (Binary64.round (n / 10000)) =
        .ok (Binary64.round (n / 10000))) ↔ KeepsTick n := by
  constructor
  · rintro ⟨hwrite, -⟩
    exact (writeDouble_eq_iff hpos hlt []).mp (hwrite [])
  · intro hkeeps
    have hwrite buf := (writeDouble_eq_iff hpos hlt buf).mpr hkeeps
    exact ⟨hwrite, relay_eq hpos hlt hwrite⟩

/-- A price of 150.25, and the theorem for it. -/
theorem price_survives_1502500 :
    ((∀ buf, writeDouble Binary64.round buf (Binary64.round ((1502500 : ℕ) / 10000)) =
        writeU64 buf 1502500) ∧
      ∀ hops, relay Binary64.round hops (Binary64.round ((1502500 : ℕ) / 10000)) =
        .ok (Binary64.round ((1502500 : ℕ) / 10000))) ∧ KeepsTick 1502500 := by
  have hkeeps : KeepsTick 1502500 := by decide
  exact ⟨(price_survives_iff (by norm_num) (by norm_num)).mpr hkeeps, hkeeps⟩

/-- A price of three ticks is written as two. -/
theorem not_price_survives :
    ¬ ∀ n : ℕ, 0 < n → n < 2 ^ 53 →
      ∀ buf, writeDouble Binary64.round buf (Binary64.round (n / 10000)) = writeU64 buf n := by
  intro h
  have hthree := (writeDouble_eq_iff (by norm_num) (by norm_num) []).mp
    (h 3 (by norm_num) (by norm_num) [])
  exact absurd hthree (by decide)

end Convergence
