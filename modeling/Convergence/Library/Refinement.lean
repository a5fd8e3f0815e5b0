import Convergence.Library.TransitionSystem

/-!
# Refinement of transition systems

A system refines another one when each of its steps puts out a run of the other, and a relation
between the states is kept. The runs of the first system are then runs of the second one, step by
step: what holds along the runs of the second holds along those of the first. A system simulates
another one when it has some run for each step of the other.

## Main definitions

* `TransitionSystem.Refines`, `TransitionSystem.Simulates`.

## Main results

* `TransitionSystem.enables_restrict`.
* `TransitionSystem.Refines.run`, `TransitionSystem.Refines.guarded`.
* `TransitionSystem.Simulates.run`.
-/

namespace TransitionSystem

variable {S L S' L' : Type*} {T : TransitionSystem S L} {T' : TransitionSystem S' L'}

/-! ### Runs under a guard -/

section Restrict

variable {guard : S → L → Prop} {s : S} {ls ls' : List L}

theorem enables_restrict :
    (T.restrict guard).Enables s ls ↔ T.Enables s ls ∧ T.Guarded guard s ls := by
  induction ls generalizing s with
  | nil => simp [Enables, Guarded]
  | cons l ls ih =>
    change (T.enabled s l ∧ guard s l) ∧ (T.restrict guard).Enables (T.step s l) ls ↔
      (T.enabled s l ∧ T.Enables (T.step s l) ls) ∧ guard s l ∧ T.Guarded guard (T.step s l) ls
    rw [ih]
    exact and_and_and_comm

@[simp] theorem emitted_restrict {O : Type*} (out : S → L → List O) :
    (T.restrict guard).emitted out s ls = T.emitted out s ls := by
  induction ls generalizing s with
  | nil => rfl
  | cons l ls ih => exact congrArg (out s l ++ ·) ih

theorem enables_append :
    T.Enables s (ls ++ ls') ↔ T.Enables s ls ∧ T.Enables (T.run s ls) ls' := by
  induction ls generalizing s with
  | nil => simp [Enables]
  | cons l ls ih => exact (and_congr_right' ih).trans and_assoc.symm

end Restrict

/-! ### Refinement -/

/-- Every step of `T` puts out labels of `T'` that can be taken, and keeps the relation `R`. -/
structure Refines (T : TransitionSystem S L) (T' : TransitionSystem S' L') (out : S → L → List L')
    (R : S → S' → Prop) : Prop where
  enables : ∀ s s' l, R s s' → T.enabled s l → T'.Enables s' (out s l)
  related : ∀ s s' l, R s s' → T.enabled s l → R (T.step s l) (T'.run s' (out s l))

namespace Refines

variable {out : S → L → List L'} {R : S → S' → Prop} {s : S} {s' : S'} {ls : List L}

/-- A run of the refining system is a run of the other one. -/
theorem run (h : T.Refines T' out R) (hR : R s s') (hls : T.Enables s ls) :
    T'.Enables s' (T.emitted out s ls) ∧
      R (T.run s ls) (T'.run s' (T.emitted out s ls)) := by
  induction ls generalizing s s' with
  | nil => exact ⟨trivial, hR⟩
  | cons l ls ih =>
    obtain ⟨hrest, hend⟩ := ih (h.related s s' l hR hls.1) hls.2
    rw [emitted, run_append]
    exact ⟨enables_append.mpr ⟨h.enables s s' l hR hls.1, hrest⟩, hend⟩

/-- A guard of the steps of the refining system that makes for a guard of what they put out. -/
theorem guarded (h : T.Refines T' out R) {guard : S → L → Prop} {guard' : S' → L' → Prop}
    (hguard : ∀ s s' l, R s s' → T.enabled s l → guard s l → T'.Guarded guard' s' (out s l))
    (hR : R s s') (hls : T.Enables s ls) (hg : T.Guarded guard s ls) :
    T'.Guarded guard' s' (T.emitted out s ls) := by
  induction ls generalizing s s' with
  | nil => trivial
  | cons l ls ih =>
    exact guarded_append.mpr ⟨hguard s s' l hR hls.1 hg.1,
      ih (h.related s s' l hR hls.1) hls.2 hg.2⟩

end Refines

/-! ### Simulation -/

/-- Every step of `T` is matched by some run of `T'`, and the relation `R` is kept. -/
def Simulates (T' : TransitionSystem S' L') (T : TransitionSystem S L) (R : S → S' → Prop) : Prop :=
  ∀ s s' l, R s s' → T.enabled s l → ∃ ls', T'.Enables s' ls' ∧ R (T.step s l) (T'.run s' ls')

/-- A run is matched by a run. -/
theorem Simulates.run {R : S → S' → Prop} (h : T'.Simulates T R) {s : S} {s' : S'} {ls : List L}
    (hR : R s s') (hls : T.Enables s ls) :
    ∃ ls', T'.Enables s' ls' ∧ R (T.run s ls) (T'.run s' ls') := by
  induction ls generalizing s s' with
  | nil => exact ⟨[], trivial, hR⟩
  | cons l ls ih =>
    obtain ⟨front, hfront, hmid⟩ := h s s' l hR hls.1
    obtain ⟨rest, hrest, hend⟩ := ih hmid hls.2
    refine ⟨front ++ rest, enables_append.mpr ⟨hfront, hrest⟩, ?_⟩
    rw [run_append]
    exact hend

end TransitionSystem
