import Mathlib.Data.Finset.Sort
import Mathlib.Data.List.Destutter
import Mathlib.Data.List.Sort

/-!
# Ranks in a sorted list without repetitions

Sorting a list and then dropping repeated neighbours leaves the members of the list in increasing
order, once each. So the position of a member is the number of smaller ones.

## Main definitions

* `Ranking.sortUnique`.

## Main results

* `Ranking.mem_sortUnique`, `Ranking.pairwise_sortUnique`: the members, in order.
* `Ranking.idxOf_sortUnique`: the position of a member.
-/

namespace Ranking

variable {α : Type*} [LinearOrder α] {l : List α} {a : α}

/-- `std::sort`, then `std::unique` with `erase`. -/
def sortUnique (l : List α) : List α := (l.insertionSort (· ≤ ·)).destutter (· ≠ ·)

/-! ### Members and order -/

theorem mem_destutter'_ne {x : α} (l : List α) (a : α) :
    x ∈ l.destutter' (· ≠ ·) a ↔ x ∈ a :: l := by
  induction l generalizing a with
  | nil => rfl
  | cons b l ih =>
    rw [List.destutter'_cons]
    split_ifs with hab
    · rw [List.mem_cons, ih, List.mem_cons (a := x) (b := a)]
    · obtain rfl := not_not.mp hab
      rw [ih, List.mem_cons, List.mem_cons, List.mem_cons, or_self_left]

@[simp] theorem mem_sortUnique : a ∈ sortUnique l ↔ a ∈ l := by
  have hsort : a ∈ l.insertionSort (· ≤ ·) ↔ a ∈ l := List.mem_insertionSort _
  rw [sortUnique, ← hsort]
  cases l.insertionSort (· ≤ ·) with
  | nil => rfl
  | cons b t => exact mem_destutter'_ne t b

private theorem isChain_lt (hle : l.IsChain (· ≤ ·)) (hne : l.IsChain (· ≠ ·)) :
    l.IsChain (· < ·) := by
  induction l with
  | nil => exact .nil
  | cons a l ih =>
    cases l with
    | nil => exact .singleton a
    | cons b l =>
      rw [List.isChain_cons_cons] at hle hne ⊢
      exact ⟨lt_of_le_of_ne hle.1 hne.1, ih hle.2 hne.2⟩

theorem pairwise_sortUnique (l : List α) : (sortUnique l).Pairwise (· < ·) := by
  have hle : (sortUnique l).Pairwise (· ≤ ·) :=
    (List.pairwise_insertionSort (· ≤ ·) l).sublist (List.destutter_sublist ..)
  have hne : (sortUnique l).IsChain (· ≠ ·) := List.isChain_destutter ..
  exact List.isChain_iff_pairwise.mp (isChain_lt hle.isChain hne)

theorem nodup_sortUnique (l : List α) : (sortUnique l).Nodup :=
  (pairwise_sortUnique l).imp fun h => h.ne

/-! ### Positions -/

theorem idxOf_of_pairwise [BEq α] [LawfulBEq α] (h : l.Pairwise (· < ·)) (ha : a ∈ l) :
    l.idxOf a = {x ∈ l.toFinset | x < a}.card := by
  induction l with
  | nil => exact absurd ha List.not_mem_nil
  | cons b l ih =>
    obtain ⟨hb, hl⟩ := List.pairwise_cons.mp h
    by_cases hab : b = a
    · subst hab
      rw [List.idxOf_cons_self, eq_comm, Finset.card_eq_zero, Finset.filter_eq_empty_iff]
      intro x hx
      rcases List.mem_cons.mp (List.mem_toFinset.mp hx) with rfl | hx
      · exact lt_irrefl x
      · exact (hb x hx).not_gt
    · have ha : a ∈ l := (List.mem_cons.mp ha).resolve_left (Ne.symm hab)
      have hnot : b ∉ {x ∈ l.toFinset | x < a} := fun hmem =>
        (hb b (List.mem_toFinset.mp (Finset.mem_filter.mp hmem).1)).false
      rw [List.idxOf_cons_ne l hab, ih hl ha, List.toFinset_cons, Finset.filter_insert,
        if_pos (hb a ha), Finset.card_insert_of_notMem hnot]

/-- The position of a member is the number of smaller members. -/
theorem idxOf_sortUnique [BEq α] [LawfulBEq α] (ha : a ∈ l) :
    (sortUnique l).idxOf a = {x ∈ l.toFinset | x < a}.card := by
  rw [idxOf_of_pairwise (pairwise_sortUnique l) (mem_sortUnique.mpr ha)]
  congr 2
  ext x
  simp

end Ranking
