import Mathlib.Algebra.BigOperators.Group.Finset.Piecewise
import Mathlib.Algebra.Ring.Nat

/-!
# Tables

A table is a list of rows. A checked update fails when the row or the entry is missing; inside a
rectangular table it changes the function of the entries at one place. Counting the members of a
list in the table by a row and a column of each counts every member once.

## Main definitions

* `Table.ofFn`: the rectangular table of a function.
* `Table.update?`: the checked update of one entry.

## Main results

* `Table.update?_ofFn`.
* `Table.sum_ofFn_countP`: the entries of a table of counts add up to the number of members.
-/

namespace Table

variable {α β : Type*}

/-- The table of `n` rows of `m` entries. -/
def ofFn (n m : ℕ) (f : ℕ → ℕ → α) : List (List α) :=
  (List.range n).map fun i => (List.range m).map (f i)

/-- The entry in row `i` and column `j` is replaced by its image, if there is one. -/
def update? (f : α → α) (i j : ℕ) (rows : List (List α)) : Option (List (List α)) := do
  let row ← rows[i]?
  let entry ← row[j]?
  some (rows.set i (row.set j (f entry)))

variable {n m i j : ℕ}

theorem ofFn_const (n m : ℕ) (a : α) :
    ofFn n m (fun _ _ => a) = List.replicate n (List.replicate m a) := by
  simp [ofFn]

theorem getElem?_ofFn (f : ℕ → ℕ → α) (hi : i < n) :
    (ofFn n m f)[i]? = some ((List.range m).map (f i)) := by
  simp [ofFn, hi]

theorem set_map_range {f : ℕ → α} {a : α} :
    ((List.range m).map f).set j a = (List.range m).map fun j' => if j' = j then a else f j' := by
  apply List.ext_getElem
  · simp
  · intro k hk hk'
    simp only [List.getElem_set, List.getElem_map, List.getElem_range, eq_comm]

/-- An update inside the table changes the function at one place. -/
theorem update?_ofFn (f : α → α) (g : ℕ → ℕ → α) (hi : i < n) (hj : j < m) :
    update? f i j (ofFn n m g) =
      some (ofFn n m fun i' j' => if i' = i ∧ j' = j then f (g i' j') else g i' j') := by
  have hentry : ((List.range m).map (g i))[j]? = some (g i j) := by simp [hj]
  simp only [update?, getElem?_ofFn g hi, hentry, Option.bind_eq_bind, Option.bind_some,
    Option.some.injEq]
  rw [ofFn, set_map_range, set_map_range]
  refine List.map_congr_left fun i' _ => ?_
  by_cases hrow : i' = i
  · subst hrow
    rw [if_pos rfl]
    refine List.map_congr_left fun j' _ => ?_
    by_cases hcol : j' = j
    · subst hcol
      simp
    · simp [hcol]
  · simp [hrow]

theorem sum_map_range (f : ℕ → ℕ) (n : ℕ) :
    ((List.range n).map f).sum = ∑ i ∈ Finset.range n, f i := by
  induction n with
  | zero => rfl
  | succ n ih => rw [List.range_succ, List.map_append, List.sum_append, ih, Finset.sum_range_succ,
      List.map_singleton, List.sum_singleton]

theorem sum_ofFn (f : ℕ → ℕ → ℕ) :
    ((ofFn n m f).map List.sum).sum = ∑ i ∈ Finset.range n, ∑ j ∈ Finset.range m, f i j := by
  rw [ofFn, List.map_map, sum_map_range]
  simp only [Function.comp_apply, sum_map_range]

/-- **Counting by row and column counts every member once.** -/
theorem sum_ofFn_countP {row col : β → ℕ} {xs : List β} (h : ∀ x ∈ xs, row x < n ∧ col x < m) :
    ((ofFn n m fun i j => xs.countP fun x => row x = i ∧ col x = j).map List.sum).sum =
      xs.length := by
  rw [sum_ofFn]
  induction xs with
  | nil => simp
  | cons x xs ih =>
    obtain ⟨hrow, hcol⟩ := h x List.mem_cons_self
    have hone : ∑ i ∈ Finset.range n, ∑ j ∈ Finset.range m,
        (if row x = i ∧ col x = j then 1 else 0) = 1 := by
      rw [Finset.sum_eq_single_of_mem (row x) (Finset.mem_range.mpr hrow),
        Finset.sum_eq_single_of_mem (col x) (Finset.mem_range.mpr hcol)]
      · simp
      · intro j _ hj
        simp [hj.symm]
      · intro i _ hi
        simp [hi.symm]
    simp only [List.countP_cons, decide_eq_true_eq, Finset.sum_add_distrib, hone,
      ih fun y hy => h y (List.mem_cons_of_mem x hy), List.length_cons]

end Table
