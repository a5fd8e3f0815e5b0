import Mathlib.Data.List.Count
import Mathlib.Data.Set.Defs

/-!
# Labelled transition systems

A transition system has an initial state and labelled deterministic steps, each enabled in some
states. The states of all runs are the `Reachable` ones; an invariant is proved once for the
initial state and once for a step (`Reachable.invariant`). What a run does from one of its states to
a later one is a matter of the states that the first one `Reaches`.

## Main definitions

* `TransitionSystem`, `TransitionSystem.Reachable`, `TransitionSystem.Reaches`,
  `TransitionSystem.restrict`.
* `TransitionSystem.Enables`, `TransitionSystem.run`, `TransitionSystem.Along`,
  `TransitionSystem.Guarded`: runs as lists of labels, where they end, what holds in all their
  states, and what holds of all their steps.
* `TransitionSystem.emitted`: what the steps of a run put out.

## Main results

* `TransitionSystem.Reachable.invariant`, `TransitionSystem.Reaches.invariant`.
* `TransitionSystem.along_iff_guarded`: when a property of states holds along a run exactly as long
  as a guard holds of its steps.
* `TransitionSystem.Enables.countP_le`: a measure bounds the number of steps that lower it.
* `TransitionSystem.Guarded.emitted_eq_range'`: what counts on at every step counts on along a run.
* `TransitionSystem.Guarded.exhausts`: a run that spends more than its measure is done.
-/

/-- A transition system with states `S` and labels `L`. -/
structure TransitionSystem (S L : Type*) where
  /-- The initial state. -/
  init : S
  /-- The labels that may be taken in a state. -/
  enabled : S → L → Prop
  /-- The state after a label is taken. -/
  step : S → L → S

namespace TransitionSystem

variable {S L : Type*} {T : TransitionSystem S L}

/-- The states of the finite runs from the initial state. -/
inductive Reachable (T : TransitionSystem S L) : S → Prop
  | init : Reachable T T.init
  | step {s : S} (hs : Reachable T s) (l : L) (hl : T.enabled s l) : Reachable T (T.step s l)

/-- What holds initially and is preserved by every enabled step holds in every reachable state. -/
theorem Reachable.invariant {I : S → Prop} {s : S} (hs : T.Reachable s) (hinit : I T.init)
    (hstep : ∀ s l, T.Reachable s → I s → T.enabled s l → I (T.step s l)) : I s := by
  induction hs with
  | init => exact hinit
  | step hs l hl ih => exact hstep _ l hs ih hl

/-- The states of the finite runs from `s`. -/
inductive Reaches (T : TransitionSystem S L) (s : S) : S → Prop
  | refl : Reaches T s s
  | step {s' : S} (hs : Reaches T s s') (l : L) (hl : T.enabled s' l) : Reaches T s (T.step s' l)

/-- What holds in `s` and is preserved by every enabled step holds in every state reached from
`s`. -/
theorem Reaches.invariant {I : S → Prop} {s s' : S} (hs : T.Reaches s s') (hinit : I s)
    (hstep : ∀ t l, I t → T.enabled t l → I (T.step t l)) : I s' := by
  induction hs with
  | refl => exact hinit
  | step _ l hl ih => exact hstep _ l ih hl

theorem Reaches.trans {s₁ s₂ s₃ : S} (h₁ : T.Reaches s₁ s₂) (h₂ : T.Reaches s₂ s₃) :
    T.Reaches s₁ s₃ :=
  h₂.invariant h₁ fun _ l ht hl => ht.step l hl

theorem Reachable.reaches {s s' : S} (h : T.Reachable s) (hs : T.Reaches s s') : T.Reachable s' :=
  hs.invariant h fun _ l ht hl => ht.step l hl

/-- The system whose steps also satisfy `guard`. -/
def restrict (T : TransitionSystem S L) (guard : S → L → Prop) : TransitionSystem S L where
  init := T.init
  enabled s l := T.enabled s l ∧ guard s l
  step := T.step

/-! ### Runs as lists of labels -/

/-- The labels can be taken one after the other. -/
def Enables (T : TransitionSystem S L) : S → List L → Prop
  | _, [] => True
  | s, l :: ls => T.enabled s l ∧ T.Enables (T.step s l) ls

/-- `p` holds in every state of the run. -/
def Along (T : TransitionSystem S L) (p : S → Prop) : S → List L → Prop
  | s, [] => p s
  | s, l :: ls => p s ∧ T.Along p (T.step s l) ls

/-- `guard` holds of every step of the run, in the state before the step. -/
def Guarded (T : TransitionSystem S L) (guard : S → L → Prop) : S → List L → Prop
  | _, [] => True
  | s, l :: ls => guard s l ∧ T.Guarded guard (T.step s l) ls

/-- The state at the end of a run. -/
def run (T : TransitionSystem S L) (s : S) (ls : List L) : S := ls.foldl T.step s

@[simp] theorem run_nil (s : S) : T.run s [] = s := rfl

@[simp] theorem run_cons (s : S) (l : L) (ls : List L) :
    T.run s (l :: ls) = T.run (T.step s l) ls := rfl

/-- What steps keep holds at the end of a run. -/
theorem Enables.run_invariant {I : S → Prop} {s : S} {ls : List L} (h : T.Enables s ls) (hs : I s)
    (hkeep : ∀ s l, I s → T.enabled s l → I (T.step s l)) : I (T.run s ls) := by
  induction ls generalizing s with
  | nil => exact hs
  | cons l ls ih => exact ih h.2 (hkeep s l hs h.1)

/-- When guarded steps keep an invariant that implies `p`, and the first unguarded step breaks `p`,
then `p` holds along a run if and only if all its steps are guarded. -/
theorem along_iff_guarded {I p : S → Prop} {guard : S → L → Prop} (hp : ∀ s, I s → p s)
    (hkeep : ∀ s l, I s → T.enabled s l → guard s l → I (T.step s l))
    (hbreak : ∀ s l, I s → T.enabled s l → ¬ guard s l → ¬ p (T.step s l)) {s : S} {ls : List L}
    (hs : I s) (hls : T.Enables s ls) : T.Along p s ls ↔ T.Guarded guard s ls := by
  induction ls generalizing s with
  | nil => exact iff_of_true (hp s hs) trivial
  | cons l ls ih =>
    by_cases hg : guard s l
    · exact and_congr (iff_of_true (hp s hs) hg) (ih (hkeep s l hs hls.1 hg) hls.2)
    · refine iff_of_false (fun h => hbreak s l hs hls.1 hg ?_) fun h => hg h.1
      cases ls with
      | nil => exact h.2
      | cons => exact h.2.1

/-- A measure that no step raises and that some labels lower bounds how often a run takes these. -/
theorem Enables.countP_le {μ : S → ℕ} {lowers : L → Bool}
    (hle : ∀ s l, T.enabled s l → μ (T.step s l) ≤ μ s)
    (hlt : ∀ s l, T.enabled s l → lowers l → μ (T.step s l) < μ s) {s : S} {ls : List L}
    (h : T.Enables s ls) : ls.countP lowers ≤ μ s := by
  induction ls generalizing s with
  | nil => exact Nat.zero_le _
  | cons l ls ih =>
    have hrest := ih h.2
    have hstep := hle s l h.1
    rw [List.countP_cons]
    split_ifs with hl
    · have hless := hlt s l h.1 hl
      omega
    · omega

/-! ### Runs in pieces -/

theorem run_append (s : S) (ls ls' : List L) : T.run s (ls ++ ls') = T.run (T.run s ls) ls' :=
  List.foldl_append

section Guarded

variable {I : S → Prop} {guard guard' : S → L → Prop} {s : S} {ls ls' : List L}

/-- What follows from a guard where an invariant holds that guarded steps keep. -/
theorem Guarded.imp_of_kept (h : T.Guarded guard s ls) (hs : I s)
    (hkeep : ∀ s l, I s → guard s l → I (T.step s l))
    (himp : ∀ s l, I s → guard s l → guard' s l) : T.Guarded guard' s ls := by
  induction ls generalizing s with
  | nil => trivial
  | cons l ls ih => exact ⟨himp s l hs h.1, ih h.2 (hkeep s l hs h.1)⟩

theorem guarded_append : T.Guarded guard s (ls ++ ls') ↔
    T.Guarded guard s ls ∧ T.Guarded guard (T.run s ls) ls' := by
  induction ls generalizing s with
  | nil => simp [Guarded]
  | cons l ls ih => exact (and_congr_right' ih).trans and_assoc.symm

theorem Guarded.front (h : T.Guarded guard s ls') (hls : ls <+: ls') : T.Guarded guard s ls := by
  obtain ⟨rest, rfl⟩ := hls
  exact (guarded_append.mp h).1

/-- A guard of all steps, one step at a time. -/
theorem guarded_iff_forall : T.Guarded guard s ls ↔
    ∀ before l, before ++ [l] <+: ls → guard (T.run s before) l := by
  constructor
  · intro h before l hle
    exact (guarded_append.mp (h.front hle)).2.1
  · intro h
    induction ls generalizing s with
    | nil => trivial
    | cons l ls ih =>
      refine ⟨h [] l (by simp), ih fun before l' hle => ?_⟩
      exact h (l :: before) l' (List.cons_prefix_cons.mpr ⟨rfl, hle⟩)

theorem Guarded.and (h : T.Guarded guard s ls) (h' : T.Guarded guard' s ls) :
    T.Guarded (fun s l => guard s l ∧ guard' s l) s ls := by
  induction ls generalizing s with
  | nil => trivial
  | cons l ls ih => exact ⟨⟨h.1, h'.1⟩, ih h.2 h'.2⟩

/-- A run is enabled if each of its steps is. -/
theorem enables_iff_guarded : T.Enables s ls ↔ T.Guarded T.enabled s ls := by
  induction ls generalizing s with
  | nil => exact Iff.rfl
  | cons l ls ih => exact and_congr_right' ih

/-- What follows from a guard where an invariant holds that enabled steps keep. -/
theorem Guarded.imp (h : T.Guarded guard s ls) (hls : T.Enables s ls) (hs : I s)
    (hkeep : ∀ s l, I s → T.enabled s l → I (T.step s l))
    (himp : ∀ s l, I s → T.enabled s l → guard s l → guard' s l) : T.Guarded guard' s ls :=
  (h.and (enables_iff_guarded.mp hls)).imp_of_kept hs (fun s l hs hg => hkeep s l hs hg.2)
    fun s l hs hg => himp s l hs hg.2 hg.1

/-- What guarded steps keep holds at the end of a run. -/
theorem Guarded.run_invariant (h : T.Guarded guard s ls) (hs : I s)
    (hkeep : ∀ s l, I s → guard s l → I (T.step s l)) : I (T.run s ls) := by
  induction ls generalizing s with
  | nil => exact hs
  | cons l ls ih => exact ih h.2 (hkeep s l hs h.1)

/-- What the steps of a run put out. -/
def emitted {O : Type*} (T : TransitionSystem S L) (out : S → L → List O) : S → List L → List O
  | _, [] => []
  | s, l :: ls => out s l ++ T.emitted out (T.step s l) ls

theorem flatMap_emitted {O P : Type*} (out : S → L → List O) (g : O → List P) (s : S)
    (ls : List L) : (T.emitted out s ls).flatMap g =
      T.emitted (fun s l => (out s l).flatMap g) s ls := by
  induction ls generalizing s with
  | nil => rfl
  | cons l ls ih => rw [emitted, List.flatMap_append, ih, emitted]

/-- When every step puts out the numbers from its position up to the next one, so does a run. -/
theorem Guarded.emitted_eq_range' {O : Type*} (out : S → L → List O) (num : ℕ → O) (pos : S → ℕ)
    (h : T.Guarded guard s ls) (hs : I s) (hkeep : ∀ s l, I s → guard s l → I (T.step s l))
    (hout : ∀ s l, I s → guard s l → pos s ≤ pos (T.step s l) ∧
      out s l = (List.range' (pos s) (pos (T.step s l) - pos s)).map num) :
    pos s ≤ pos (T.run s ls) ∧
      T.emitted out s ls = (List.range' (pos s) (pos (T.run s ls) - pos s)).map num := by
  induction ls generalizing s with
  | nil => simp [emitted]
  | cons l ls ih =>
    obtain ⟨hle, hstep⟩ := hout s l hs h.1
    obtain ⟨hle', hrest⟩ := ih h.2 (hkeep s l hs h.1)
    have hjoin : List.range' (pos s) (pos (T.step s l) - pos s) ++
        List.range' (pos (T.step s l)) (pos (T.run (T.step s l) ls) - pos (T.step s l)) =
          List.range' (pos s) (pos (T.run (T.step s l) ls) - pos s) := by
      have hnext := @List.range'_append_1 (pos s) (pos (T.step s l) - pos s)
        (pos (T.run (T.step s l) ls) - pos (T.step s l))
      rwa [Nat.add_sub_cancel' hle, Nat.add_comm (pos (T.step s l) - pos s),
        Nat.sub_add_sub_cancel hle' hle] at hnext
    refine ⟨Nat.le_trans hle hle', ?_⟩
    rw [emitted, hstep, hrest, ← List.map_append, hjoin, run_cons]

/-- When every step that does not finish pays for its label, a run with more to pay than its measure
finishes. -/
theorem Guarded.exhausts (Done : S → Prop) (μ : S → ℕ) (pays : L → Bool)
    (h : T.Guarded guard s ls) (hs : I s) (hkeep : ∀ s l, I s → guard s l → I (T.step s l))
    (hdone : ∀ s l, I s → guard s l → Done s → Done (T.step s l))
    (hpay : ∀ s l, I s → guard s l →
      Done (T.step s l) ∨ μ (T.step s l) + (if pays l then 1 else 0) ≤ μ s)
    (hmore : μ s < ls.countP pays) : Done (T.run s ls) := by
  induction ls generalizing s with
  | nil => exact absurd hmore (Nat.not_lt_zero _)
  | cons l ls ih =>
    have hnext := hkeep s l hs h.1
    rcases hpay s l hs h.1 with hfinished | hpaid
    · exact (h.2.run_invariant (I := fun s => I s ∧ Done s) ⟨hnext, hfinished⟩
        fun s l hsd hg => ⟨hkeep s l hsd.1 hg, hdone s l hsd.1 hg hsd.2⟩).2
    · rw [List.countP_cons] at hmore
      exact ih h.2 hnext (by omega)

end Guarded

end TransitionSystem
