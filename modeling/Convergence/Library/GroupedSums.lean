import Mathlib.Algebra.BigOperators.Group.Finset.Basic
import Mathlib.Algebra.BigOperators.Group.Finset.Piecewise
import Mathlib.Data.Finset.Sort

/-!
# Sums by key, in key order

A finite set of items with a key and a value each, summed up by key: the list of the distinct keys
in the order `r`, each with the sum of the values of the items that have it.

## Main definitions

* `groupedSums`.

## Main results

* `mem_groupedSums`, `eq_groupedSums`: a list is the list of sums by key as soon as its keys are in
  order and distinct and it has the right members.
-/

variable {α K M : Type*} [DecidableEq K] [AddCommMonoid M] (r : K → K → Prop) [DecidableRel r]
  [IsTrans K r] [Std.Antisymm r] [Std.Total r]

/-- The distinct keys of `A` in the order `r`, each with the sum of its values. -/
def groupedSums (key : α → K) (val : α → M) (A : Finset α) : List (K × M) :=
  ((A.image key).sort r).map fun k => (k, ∑ a ∈ A with key a = k, val a)

variable {r} {key : α → K} {val : α → M} {A : Finset α}

theorem keys_groupedSums : (groupedSums r key val A).map Prod.fst = (A.image key).sort r := by
  rw [groupedSums, List.map_map]
  exact List.map_id _

theorem mem_groupedSums {k : K} {m : M} :
    (k, m) ∈ groupedSums r key val A ↔
      (∃ a ∈ A, key a = k) ∧ m = ∑ a ∈ A with key a = k, val a := by
  rw [groupedSums, List.mem_map]
  constructor
  · rintro ⟨k', hk', heq⟩
    obtain ⟨rfl, rfl⟩ := Prod.mk.inj heq
    exact ⟨Finset.mem_image.mp ((Finset.mem_sort r).mp hk'), rfl⟩
  · rintro ⟨hk, rfl⟩
    exact ⟨k, (Finset.mem_sort r).mpr (Finset.mem_image.mpr hk), rfl⟩

/-- The list of the sums by key is determined by its members and the order of its keys. -/
theorem eq_groupedSums {l : List (K × M)} (hr : (l.map Prod.fst).Pairwise r)
    (hnd : (l.map Prod.fst).Nodup)
    (hmem : ∀ k m, (k, m) ∈ l ↔
      (∃ a ∈ A, key a = k) ∧ m = ∑ a ∈ A with key a = k, val a) :
    l = groupedSums r key val A := by
  have hnd' : (groupedSums r key val A).Nodup := by
    refine List.Nodup.of_map Prod.fst ?_
    rw [keys_groupedSums]
    exact Finset.sort_nodup _ _
  have hperm : l.Perm (groupedSums r key val A) :=
    (List.perm_ext_iff_of_nodup hnd.of_map hnd').mpr fun ⟨k, m⟩ => by rw [hmem, mem_groupedSums]
  have hs : l.Pairwise fun x y => r x.1 y.1 := List.pairwise_map.mp hr
  have hs' : (groupedSums r key val A).Pairwise fun x y => r x.1 y.1 := by
    refine List.pairwise_map.mp ?_
    rw [keys_groupedSums]
    exact Finset.pairwise_sort _ _
  refine hperm.eq_of_pairwise ?_ hs hs'
  intro x y hx hy hxy hyx
  have hkey : x.1 = y.1 := Std.Antisymm.antisymm _ _ hxy hyx
  exact List.inj_on_of_nodup_map hnd hx (hperm.mem_iff.mpr hy) hkey

/-- The sums by key depend on the values of the items only. -/
theorem groupedSums_congr {val' : α → M} (h : ∀ a ∈ A, val a = val' a) :
    groupedSums r key val A = groupedSums r key val' A := by
  refine List.map_congr_left fun k _ => ?_
  exact congrArg (Prod.mk k) (Finset.sum_congr rfl fun a ha => h a (Finset.mem_filter.mp ha).1)
