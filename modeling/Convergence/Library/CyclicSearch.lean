import Mathlib.Data.List.Perm.Subperm
import Mathlib.Data.Nat.Find
import Mathlib.Data.Nat.ModEq

/-!
# Searching round a circle

There are `n` slots in a circle, and some of them are marked. A search goes from a slot to the next
marked one, at the latest once round to the slot itself. As many searches in a row as there are
marked slots visit each of these once; where marks change between searches, a slot that stays marked
is visited within `n` of them.

## Main definitions

* `NextAhead`: how far the next marked slot is.
* `SearchVisits`: the slots that consecutive searches come to, each with marks of its own.
* `markedAhead`: the marked slots in the order in which a search meets them.

## Main results

* `exists_nextAhead`, `NextAhead.unique`.
* `SearchVisits.eq_markedAhead`, `markedAhead_perm`: visits under the same marks.
* `SearchVisits.mem_of_marked`: visits under changing marks.
-/

variable {n start : ℕ} {A : ℕ → Prop}

/-- The next marked slot after `start` is `d` slots ahead, at most one circle. -/
structure NextAhead (n : ℕ) (A : ℕ → Prop) (start d : ℕ) : Prop where
  pos : 0 < d
  le : d ≤ n
  marked : A ((start + d) % n)
  first : ∀ c, 0 < c → c < d → ¬ A ((start + c) % n)

/-- Turns add up. -/
theorem mod_add_turns (n start c d : ℕ) : ((start + c) % n + d) % n = (start + (c + d)) % n := by
  rw [Nat.mod_add_mod, Nat.add_assoc]

theorem mod_no_turn (hstart : start < n) : (start + 0) % n = start := Nat.mod_eq_of_lt hstart

/-- Every slot is at most one full circle ahead. -/
theorem exists_turns {start k n : ℕ} (hk : k < n) (hstart : start < n) :
    ∃ d, 0 < d ∧ d ≤ n ∧ (start + d) % n = k := by
  by_cases hlt : start < k
  · exact ⟨k - start, by omega, by omega, by
      rw [Nat.add_sub_cancel' hlt.le, Nat.mod_eq_of_lt hk]⟩
  · refine ⟨k + n - start, by omega, by omega, ?_⟩
    rw [Nat.add_sub_cancel' (by omega), Nat.add_mod_right, Nat.mod_eq_of_lt hk]

/-- A marked slot is found. -/
theorem exists_nextAhead {k : ℕ} (hk : k < n) (hstart : start < n) (hA : A k) :
    ∃ d, NextAhead n A start d := by
  classical
  obtain ⟨d, hpos, hle, rfl⟩ := exists_turns hk hstart
  have hex : ∃ d, 0 < d ∧ A ((start + d) % n) := ⟨d, hpos, hA⟩
  refine ⟨Nat.find hex, (Nat.find_spec hex).1, (Nat.find_min' hex ⟨hpos, hA⟩).trans hle,
    (Nat.find_spec hex).2, fun c hc hcd hmarked => ?_⟩
  exact Nat.find_min hex hcd ⟨hc, hmarked⟩

namespace NextAhead

variable {d d' : ℕ}

theorem le_of_marked (h : NextAhead n A start d) (hpos : 0 < d') (hA : A ((start + d') % n)) :
    d ≤ d' := by
  by_contra hlt
  exact h.first d' hpos (by omega) hA

theorem unique (h : NextAhead n A start d) (h' : NextAhead n A start d') : d = d' :=
  le_antisymm (h.le_of_marked h'.pos h'.marked) (h'.le_of_marked h.pos h.marked)

end NextAhead

/-- The slots that searches come to, one after the other from `start`, under marks that may change
from one to the next. -/
inductive SearchVisits (n : ℕ) : List (ℕ → Prop) → ℕ → List ℕ → Prop
  | nil (start : ℕ) : SearchVisits n [] start []
  | cons {A : ℕ → Prop} {As : List (ℕ → Prop)} {start d : ℕ} {visited : List ℕ}
      (hnext : NextAhead n A start d) (hrest : SearchVisits n As ((start + d) % n) visited) :
      SearchVisits n (A :: As) start ((start + d) % n :: visited)

/-- A slot that stays marked is visited: each search that does not come to it comes closer. -/
theorem SearchVisits.mem_of_marked {As : List (ℕ → Prop)} {visited : List ℕ}
    (h : SearchVisits n As start visited) {d : ℕ} (hpos : 0 < d) (hd : d ≤ As.length)
    (hA : ∀ A ∈ As, A ((start + d) % n)) : (start + d) % n ∈ visited := by
  induction h generalizing d with
  | nil start => exact absurd hd (by simpa using hpos.ne')
  | @cons A As start c visited hnext hrest ih =>
    have hcd : c ≤ d := hnext.le_of_marked hpos (hA A List.mem_cons_self)
    rcases hcd.eq_or_lt with rfl | hlt
    · exact List.mem_cons_self
    · have hstep : ((start + c) % n + (d - c)) % n = (start + d) % n := by
        rw [mod_add_turns, Nat.add_sub_cancel' hcd]
      have hlen : d - c ≤ As.length := by
        have hc := hnext.pos
        rw [List.length_cons] at hd
        omega
      rw [← hstep] at hA ⊢
      exact List.mem_cons_of_mem _ (ih (Nat.sub_pos_of_lt hlt) hlen fun B hB =>
        hA B (List.mem_cons_of_mem _ hB))

/-- The marked slots more than `c` and at most `n` ahead of `start`, in that order. -/
def markedAhead (n : ℕ) (A : ℕ → Prop) [DecidablePred A] (start c : ℕ) : List ℕ :=
  ((List.range' (c + 1) (n - c)).filter fun d => A ((start + d) % n)).map fun d => (start + d) % n

section Circle

variable [DecidablePred A]

/-- The first of the marked slots ahead is the one that a search finds. -/
theorem exists_of_markedAhead_eq_cons {c k : ℕ} {slots : List ℕ}
    (h : markedAhead n A start c = k :: slots) : ∃ d, c < d ∧ k = (start + d) % n ∧
      NextAhead n A ((start + c) % n) (d - c) ∧ slots = markedAhead n A start d := by
  obtain ⟨d, ds, hfilter, rfl, rfl⟩ := List.map_eq_cons_iff.mp h
  obtain ⟨l₁, l₂, hrange, hbefore, hmarked, rfl⟩ := List.filter_eq_cons_iff.mp hfilter
  obtain ⟨m, hm, rfl, htail⟩ := List.range'_eq_append_iff.mp hrange
  obtain ⟨hd, hpos, rfl⟩ := List.range'_eq_cons_iff.mp htail.symm
  rw [Nat.mul_one] at hd
  refine ⟨d, by omega, rfl, ⟨by omega, by omega, ?_, fun x hx hxd hA => ?_⟩, ?_⟩
  · rw [mod_add_turns, Nat.add_sub_cancel' (by omega)]
    exact of_decide_eq_true hmarked
  · rw [mod_add_turns] at hA
    exact hbefore (c + x) (List.mem_range'_1.mpr (by omega)) (decide_eq_true hA)
  · rw [markedAhead, show n - c - m - 1 = n - d by omega]

/-- Searches under the same marks visit the marked slots in the order of the circle. -/
theorem SearchVisits.eq_markedAhead {c k : ℕ} {visited : List ℕ}
    (hk : k = (markedAhead n A start c).length)
    (h : SearchVisits n (List.replicate k A) ((start + c) % n) visited) :
    visited = markedAhead n A start c := by
  induction k generalizing c visited with
  | zero =>
    rw [List.length_eq_zero_iff.mp hk.symm]
    cases h
    rfl
  | succ k ih =>
    cases hslots : markedAhead n A start c with
    | nil =>
      rw [hslots] at hk
      cases hk
    | cons slot slots =>
      obtain ⟨d, hcd, rfl, hnext, rfl⟩ := exists_of_markedAhead_eq_cons hslots
      rw [hslots, List.length_cons, Nat.succ_inj] at hk
      cases h with
      | @cons _ _ _ x visited hx hrest =>
        obtain rfl := hx.unique hnext
        have hstep : ((start + c) % n + (d - c)) % n = (start + d) % n := by
          rw [mod_add_turns, Nat.add_sub_cancel' hcd.le]
        rw [hstep] at hrest ⊢
        rw [ih hk hrest]

/-- One full circle meets every slot once. -/
theorem circle_perm (hstart : start < n) :
    ((List.range' 1 n).map fun d => (start + d) % n).Perm (List.range n) := by
  refine (List.Subperm.perm_of_length_le (List.nodup_range.subperm fun k hk => ?_) ?_).symm
  · obtain ⟨d, hpos, hle, rfl⟩ := exists_turns (List.mem_range.mp hk) hstart
    exact List.mem_map.mpr ⟨d, List.mem_range'_1.mpr (by omega), rfl⟩
  · rw [List.length_map, List.length_range', List.length_range]

/-- The marked slots of a full circle are all the marked slots. -/
theorem markedAhead_perm (hstart : start < n) :
    (markedAhead n A start 0).Perm ((List.range n).filter fun k => A k) := by
  have hfilter : markedAhead n A start 0 =
      ((List.range' 1 n).map fun d => (start + d) % n).filter fun k => A k := by
    rw [List.filter_map]
    rfl
  rw [hfilter]
  exact (circle_perm hstart).filter _

end Circle
