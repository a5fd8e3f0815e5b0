import Mathlib.Topology.Algebra.Group.SubmonoidClosure
import Mathlib.Topology.Instances.AddCircle.DenseSubgroup
import Mathlib.Topology.Instances.AddCircle.Real

/-!
# Multiples of an irrational number modulo one

The multiples of an irrational number come back to every open arc of the circle again and again.
For floors of multiples this means that fractional parts and residues are met infinitely often.

## Main results

* `Irrational.exists_mul_sub_mem_Ioo`: the natural multiples, from any one on, meet every arc.
* `Irrational.exists_floor_emod`: the floors of the multiples, from any one on, meet every residue
  with the fractional part in any given interval.
* `Irrational.exists_floor_add`: the two amounts by which a summand moves the floors.
-/

open Filter Set

variable {θ : ℝ}

/-- The natural multiples of an irrational number, from any one on, meet every arc. -/
theorem Irrational.exists_mul_sub_mem_Ioo (hθ : Irrational θ) {a b : ℝ} (hab : a < b) (R : ℕ) :
    ∃ r ≥ R, ∃ k : ℤ, (r : ℝ) * θ - k ∈ Ioo a b := by
  have hdense : DenseRange (· • (θ : AddCircle (1 : ℝ)) : ℤ → AddCircle (1 : ℝ)) :=
    AddCircle.denseRange_zsmul_coe_iff.mpr (by rwa [div_one])
  obtain ⟨x, hx⟩ := exists_between hab
  have hcluster : MapClusterPt (x : AddCircle (1 : ℝ)) atTop
      (· • (θ : AddCircle (1 : ℝ)) : ℕ → AddCircle (1 : ℝ)) :=
    ((mapClusterPt_atTop_nsmul_tfae _ _).out 0 3).mpr (hdense _)
  have hopen : IsOpen ((↑) '' Ioo a b : Set (AddCircle (1 : ℝ))) :=
    QuotientAddGroup.isOpenMap_coe _ isOpen_Ioo
  have hfreq := hcluster.frequently (hopen.mem_nhds (mem_image_of_mem _ hx))
  obtain ⟨r, hr, y, hy, hyr⟩ := frequently_atTop.mp hfreq R
  have heq : ((y : ℝ) : AddCircle (1 : ℝ)) = ((r * θ : ℝ) : AddCircle (1 : ℝ)) := by
    rw [hyr, ← nsmul_eq_mul, AddCircle.coe_nsmul]
  obtain ⟨k, hk⟩ := AddSubgroup.mem_zmultiples_iff.mp (QuotientAddGroup.eq.mp heq)
  refine ⟨r, hr, k, ?_⟩
  have hsub : (r : ℝ) * θ - k = y := by
    rw [zsmul_eq_mul, mul_one] at hk
    rw [hk]
    ring
  rwa [hsub]

/-- The floors of the multiples of an irrational number, from any one on, meet every residue, with a
fractional part in any given interval. -/
theorem Irrational.exists_floor_emod (hθ : Irrational θ) {m : ℕ} (hm : 0 < m) {i : ℕ} (hi : i < m)
    {a b : ℝ} (ha : 0 ≤ a) (hab : a < b) (hb : b ≤ 1) (R : ℕ) :
    ∃ r ≥ R, ⌊(r : ℝ) * θ⌋ % m = i ∧ Int.fract ((r : ℝ) * θ) ∈ Ioo a b := by
  have hm' : (0 : ℝ) < m := Nat.cast_pos.mpr hm
  have hirr : Irrational (θ / m) := hθ.div_natCast hm.ne'
  obtain ⟨r, hr, k, hlow, hhigh⟩ := hirr.exists_mul_sub_mem_Ioo
    (div_lt_div_of_pos_right (add_lt_add_right hab (i : ℝ)) hm') R
  rw [← mul_div_assoc, lt_sub_iff_add_lt, div_add' _ _ _ hm'.ne', div_lt_div_iff_of_pos_right hm']
    at hlow
  rw [← mul_div_assoc, sub_lt_iff_lt_add, div_add' _ _ _ hm'.ne', div_lt_div_iff_of_pos_right hm']
    at hhigh
  have hfloor : ⌊(r : ℝ) * θ⌋ = k * m + i := by
    rw [Int.floor_eq_iff]
    push_cast
    constructor
    · linarith
    · linarith
  refine ⟨r, hr, ?_, ?_⟩
  · rw [hfloor, Int.add_comm, Int.add_mul_emod_self_right]
    exact Int.emod_eq_of_lt (Int.natCast_nonneg i) (Int.ofNat_lt.mpr hi)
  · rw [Int.fract, hfloor]
    push_cast
    constructor
    · linarith
    · linarith

/-- Adding `y` moves the floors of the multiples by one of two amounts, by each of them again and
again. -/
theorem Irrational.exists_floor_add (hθ : Irrational θ) {y : ℝ} (hy : 0 < Int.fract y) (R : ℕ) :
    (∃ r ≥ R, ⌊(r : ℝ) * θ + y⌋ = ⌊(r : ℝ) * θ⌋ + ⌊y⌋) ∧
      ∃ r ≥ R, ⌊(r : ℝ) * θ + y⌋ = ⌊(r : ℝ) * θ⌋ + (⌊y⌋ + 1) := by
  have hone := Int.fract_lt_one y
  have hsum := Int.floor_add_fract y
  constructor
  · obtain ⟨r, hr, -, hlow, hhigh⟩ := hθ.exists_floor_emod Nat.one_pos Nat.one_pos le_rfl
      (sub_pos.mpr hone) (by linarith) R
    have hmul := Int.floor_add_fract ((r : ℝ) * θ)
    refine ⟨r, hr, Int.floor_eq_iff.mpr ?_⟩
    push_cast
    constructor
    · linarith
    · linarith
  · obtain ⟨r, hr, -, hlow, hhigh⟩ := hθ.exists_floor_emod Nat.one_pos Nat.one_pos
      (sub_pos.mpr hone).le (by linarith : 1 - Int.fract y < 1) le_rfl R
    have hmul := Int.floor_add_fract ((r : ℝ) * θ)
    refine ⟨r, hr, Int.floor_eq_iff.mpr ?_⟩
    push_cast
    constructor
    · linarith
    · linarith
