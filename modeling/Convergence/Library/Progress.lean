import Convergence.Library.Refinement

/-!
# Progress in runs

A run that leads from one place to another one has a step at which it gets there: a counter that
grows by at most one takes every value on its way, a property that holds at the start and not at the
end is lost at some step, and a cursor that goes round a circle comes by every place.

## Main results

* `TransitionSystem.Enables.exists_count`, `TransitionSystem.Enables.exists_exit`.
* `TransitionSystem.Enables.exists_arrival`.
-/

namespace TransitionSystem

variable {S L : Type*} {T : TransitionSystem S L} {s : S} {ls : List L}

/-- A step of the run of which `q` holds, with the state before it. -/
def Takes (T : TransitionSystem S L) (q : S → L → Prop) (s : S) (ls : List L) : Prop :=
  ∃ before l after, ls = before ++ l :: after ∧ T.enabled (T.run s before) l ∧
    q (T.run s before) l

theorem Takes.head {q : S → L → Prop} {l : L} (hl : T.enabled s l) (h : q s l) :
    T.Takes q s (l :: ls) :=
  ⟨[], l, ls, rfl, hl, h⟩

theorem Takes.imp {q q' : S → L → Prop} (h : T.Takes q s ls) (himp : ∀ s l, q s l → q' s l) :
    T.Takes q' s ls := by
  obtain ⟨before, l, after, hls, hl, hq⟩ := h
  exact ⟨before, l, after, hls, hl, himp _ _ hq⟩

/-- A step under a guard. -/
theorem Takes.of_restrict {q guard : S → L → Prop} (h : (T.restrict guard).Takes q s ls) :
    T.Takes (fun s l => guard s l ∧ q s l) s ls := by
  obtain ⟨before, l, after, hls, ⟨hl, hg⟩, hq⟩ := h
  exact ⟨before, l, after, hls, hl, hg, hq⟩

/-- What happens after some steps. -/
theorem Takes.append {q : S → L → Prop} {front : List L} (h : T.Takes q (T.run s front) ls) :
    T.Takes q s (front ++ ls) := by
  obtain ⟨before, l, after, rfl, h⟩ := h
  refine ⟨front ++ before, l, after, (List.append_assoc ..).symm, ?_⟩
  rwa [run_append]

theorem Takes.tail {q : S → L → Prop} {l : L} (h : T.Takes q (T.step s l) ls) :
    T.Takes q s (l :: ls) := by
  have hfront : T.Takes q (T.run s [l]) ls := h
  exact hfront.append

namespace Enables

/-- A counter that grows by at most one takes every value on its way. -/
theorem exists_count {μ : S → ℕ} (hμ : ∀ s l, T.enabled s l → μ (T.step s l) ≤ μ s + 1)
    (h : T.Enables s ls) {r : ℕ} (hlow : μ s < r) (hhigh : r ≤ μ (T.run s ls)) :
    T.Takes (fun s l => μ s + 1 = r ∧ μ (T.step s l) = r) s ls := by
  induction ls generalizing s with
  | nil => exact absurd hhigh (Nat.not_le.mpr hlow)
  | cons l ls ih =>
    have hone := hμ s l h.1
    by_cases hnext : μ (T.step s l) < r
    · exact (ih h.2 hnext hhigh).tail
    · exact .head h.1 ⟨by omega, by omega⟩

/-- What holds at the start and not at the end is lost at some step. -/
theorem exists_exit {p : S → Prop} (h : T.Enables s ls) (hs : p s) (hend : ¬ p (T.run s ls)) :
    T.Takes (fun s l => p s ∧ ¬ p (T.step s l)) s ls := by
  induction ls generalizing s with
  | nil => exact absurd hs hend
  | cons l ls ih =>
    by_cases hnext : p (T.step s l)
    · exact (ih h.2 hnext hend).tail
    · exact .head h.1 ⟨hs, hnext⟩

/-- A cursor `c` that the steps of `b` move on by one place of a circle, and that the others leave
where it is, comes by the place `d` places ahead when at least `d` steps move it. -/
theorem exists_arrival {m : ℕ} {c : S → ℕ} {b : L → Bool}
    (hmove : ∀ s l, T.enabled s l → b l → c (T.step s l) = (c s + 1) % m)
    (hstay : ∀ s l, T.enabled s l → ¬ b l → c (T.step s l) = c s)
    (h : T.Enables s ls) {d k : ℕ} (hpos : 0 < d) (hd : d ≤ ls.countP b)
    (hk : (c s + d) % m = k) :
    T.Takes (fun s l => b l ∧ c (T.step s l) = k) s ls := by
  induction ls generalizing s d with
  | nil => exact absurd hd (Nat.not_le.mpr hpos)
  | cons l ls ih =>
    by_cases hl : b l
    · have hnext := hmove s l h.1 hl
      rw [List.countP_cons_of_pos hl] at hd
      by_cases hone : d = 1
      · exact .head h.1 ⟨hl, hnext.trans (hone ▸ hk)⟩
      · have hrest : (c (T.step s l) + (d - 1)) % m = k := by
          rw [hnext, Nat.mod_add_mod, Nat.add_assoc, Nat.add_sub_cancel' hpos, hk]
        exact (ih h.2 (by omega) (by omega) hrest).tail
    · rw [List.countP_cons_of_neg hl] at hd
      exact (ih h.2 hpos hd (hstay s l h.1 hl ▸ hk)).tail

end Enables

end TransitionSystem
