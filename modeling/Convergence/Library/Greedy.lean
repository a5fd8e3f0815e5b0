import Mathlib.Algebra.BigOperators.Group.List.Basic
import Mathlib.Algebra.Order.BigOperators.Group.List
import Mathlib.Algebra.Order.Group.MinMax
import Mathlib.Algebra.Order.Group.Int
import Mathlib.Algebra.Ring.Int.Defs
import Mathlib.Data.List.Infix

/-!
# Serving a queue greedily

A budget is spent on a queue of items, each of which can take up to its size: the items are served
from the front, every one as far as the budget goes, until the budget is spent. All items that are
served but the last one are served whole.

## Main definitions

* `Greedy.serve`: who gets how much.
* `Greedy.leave`: the queue that is left, an item served in part having become smaller.

## Main results

* `Greedy.serve_append`, `Greedy.leave_append`: queues served one after the other.
* `Greedy.sum_serve`: the budget or the size of the queue is spent, whichever is smaller.
* `Greedy.serve_cases`: the queue splits into items served whole, at most one served in part, and
  items that are left.
-/

namespace Greedy

variable {α : Type*} (size : α → ℤ) (less : α → ℤ → α)

/-- The items that are served, with the quantities they get. -/
def serve : List α → ℤ → List (α × ℤ)
  | [], _ => []
  | a :: l, budget =>
    if budget ≤ 0 then []
    else if size a ≤ budget then (a, size a) :: serve l (budget - size a)
    else [(a, budget)]

/-- The items that are left. -/
def leave : List α → ℤ → List α
  | [], _ => []
  | a :: l, budget =>
    if budget ≤ 0 then a :: l
    else if size a ≤ budget then leave l (budget - size a)
    else less a budget :: l

/-- The quantity that the items get in all. -/
def served (l : List α) (budget : ℤ) : ℤ := ((serve size l budget).map Prod.snd).sum

variable {size less} {l : List α} {a : α} {budget : ℤ}

theorem serve_of_nonpos (l : List α) (h : budget ≤ 0) : serve size l budget = [] := by
  cases l with
  | nil => rfl
  | cons a l => rw [serve, if_pos h]

theorem leave_of_nonpos (l : List α) (h : budget ≤ 0) : leave size less l budget = l := by
  cases l with
  | nil => rfl
  | cons a l => rw [leave, if_pos h]

theorem serve_cons_whole (h : 0 < budget) (ha : size a ≤ budget) :
    serve size (a :: l) budget = (a, size a) :: serve size l (budget - size a) := by
  rw [serve, if_neg h.not_ge, if_pos ha]

theorem leave_cons_whole (h : 0 < budget) (ha : size a ≤ budget) :
    leave size less (a :: l) budget = leave size less l (budget - size a) := by
  rw [leave, if_neg h.not_ge, if_pos ha]

theorem serve_cons_part (h : 0 < budget) (ha : budget < size a) :
    serve size (a :: l) budget = [(a, budget)] := by
  rw [serve, if_neg h.not_ge, if_neg ha.not_ge]

theorem leave_cons_part (h : 0 < budget) (ha : budget < size a) :
    leave size less (a :: l) budget = less a budget :: l := by
  rw [leave, if_neg h.not_ge, if_neg ha.not_ge]

theorem served_of_nonpos (l : List α) (h : budget ≤ 0) : served size l budget = 0 := by
  rw [served, serve_of_nonpos l h]
  rfl

theorem served_cons_whole (h : 0 < budget) (ha : size a ≤ budget) :
    served size (a :: l) budget = size a + served size l (budget - size a) := by
  rw [served, served, serve_cons_whole h ha, List.map_cons, List.sum_cons]

theorem served_cons_part (h : 0 < budget) (ha : budget < size a) :
    served size (a :: l) budget = budget := by
  rw [served, serve_cons_part h ha]
  simp

/-- The items behind are served with what the items in front leave of the budget. -/
theorem serve_append (l l' : List α) (budget : ℤ) :
    serve size (l ++ l') budget =
      serve size l budget ++ serve size l' (budget - served size l budget) := by
  induction l generalizing budget with
  | nil => simp [serve, served]
  | cons a l ih =>
    rcases le_or_gt budget 0 with h | h
    · rw [serve_of_nonpos _ h, serve_of_nonpos _ h, served_of_nonpos _ h, sub_zero,
        serve_of_nonpos _ h, List.nil_append]
    rcases le_or_gt (size a) budget with ha | ha
    · rw [List.cons_append, serve_cons_whole h ha, serve_cons_whole h ha, ih,
        served_cons_whole h ha, sub_sub, List.cons_append]
    · rw [List.cons_append, serve_cons_part h ha, serve_cons_part h ha, served_cons_part h ha,
        sub_self, serve_of_nonpos _ le_rfl, List.append_nil]

theorem leave_append (l l' : List α) (budget : ℤ) :
    leave size less (l ++ l') budget =
      leave size less l budget ++ leave size less l' (budget - served size l budget) := by
  induction l generalizing budget with
  | nil => simp [leave, served, serve]
  | cons a l ih =>
    rcases le_or_gt budget 0 with h | h
    · rw [leave_of_nonpos _ h, leave_of_nonpos _ h, served_of_nonpos _ h, sub_zero,
        leave_of_nonpos _ h]
    rcases le_or_gt (size a) budget with ha | ha
    · rw [List.cons_append, leave_cons_whole h ha, leave_cons_whole h ha, ih,
        served_cons_whole h ha, sub_sub]
    · rw [List.cons_append, leave_cons_part h ha, leave_cons_part h ha, served_cons_part h ha,
        sub_self, leave_of_nonpos _ le_rfl, List.cons_append]

theorem mem_of_mem_serve {x : α × ℤ} (h : x ∈ serve size l budget) : x.1 ∈ l := by
  induction l generalizing budget with
  | nil => exact absurd h List.not_mem_nil
  | cons a l ih =>
    rw [serve] at h
    split_ifs at h
    · exact absurd h List.not_mem_nil
    · rcases List.mem_cons.mp h with rfl | h
      · exact List.mem_cons_self
      · exact List.mem_cons_of_mem a (ih h)
    · rw [List.mem_singleton.mp h]
      exact List.mem_cons_self

/-- **What is served in all**: the budget, or everything. -/
theorem sum_serve (hpos : ∀ a ∈ l, 0 < size a) (budget : ℤ) :
    served size l budget = min (max budget 0) (l.map size).sum := by
  induction l generalizing budget with
  | nil => simp [served, serve]
  | cons a l ih =>
    have hl : ∀ x ∈ l, 0 < size x := fun x hx => hpos x (List.mem_cons_of_mem _ hx)
    have hsum : 0 ≤ (l.map size).sum := List.sum_nonneg fun n hn => by
      obtain ⟨x, hx, rfl⟩ := List.mem_map.mp hn
      exact (hl x hx).le
    have ha := hpos a List.mem_cons_self
    rw [List.map_cons, List.sum_cons]
    rcases le_or_gt budget 0 with h | h
    · rw [served_of_nonpos _ h]
      omega
    rcases le_or_gt (size a) budget with hle | hlt
    · rw [served_cons_whole h hle, ih hl]
      omega
    · rw [served_cons_part h hlt]
      omega

/-- **How a queue is served.** Items in front are served whole; then the budget is spent, or the
next item takes the rest of it, or the queue is at its end. -/
theorem serve_cases (less : α → ℤ → α) (hpos : ∀ a ∈ l, 0 < size a) (budget : ℤ) :
    ∃ whole rest, l = whole ++ rest ∧
      (serve size l budget = whole.map (fun a => (a, size a)) ∧ leave size less l budget = rest ∨
        ∃ a n behind, rest = a :: behind ∧ 0 < n ∧ n < size a ∧
          serve size l budget = whole.map (fun a => (a, size a)) ++ [(a, n)] ∧
          leave size less l budget = less a n :: behind) := by
  induction l generalizing budget with
  | nil => exact ⟨[], [], rfl, Or.inl ⟨rfl, rfl⟩⟩
  | cons a l ih =>
    rcases le_or_gt budget 0 with h | h
    · exact ⟨[], a :: l, rfl, Or.inl ⟨serve_of_nonpos _ h, leave_of_nonpos _ h⟩⟩
    rcases le_or_gt (size a) budget with hle | hlt
    · obtain ⟨whole, rest, rfl, hcase⟩ :=
        ih (fun x hx => hpos x (List.mem_cons_of_mem _ hx)) (budget - size a)
      refine ⟨a :: whole, rest, rfl, ?_⟩
      rw [serve_cons_whole h hle, leave_cons_whole h hle]
      rcases hcase with ⟨hserve, hleave⟩ | ⟨b, n, behind, hrest, hn, hlt, hserve, hleave⟩
      · exact Or.inl ⟨by rw [hserve, List.map_cons], hleave⟩
      · exact Or.inr ⟨b, n, behind, hrest, hn, hlt, by rw [hserve, List.map_cons, List.cons_append],
          hleave⟩
    · exact ⟨[], a :: l, rfl, Or.inr ⟨a, budget, l, rfl, h, hlt, serve_cons_part h hlt,
        leave_cons_part h hlt⟩⟩

end Greedy
