import Convergence.Library.TransitionSystem
import Mathlib.Algebra.Order.Group.Int
import Mathlib.Data.List.Induction

/-!
# Failure detection by a timeout

A detector that keeps a flag and the last time it heard from a peer: whatever comes from the peer
sets the flag, and a check that finds more time gone by than the timeout clears it. The flag is
clear exactly when some check found the peer overdue and nothing has come from it since. The times
need not grow.

## Main definitions

* `Sight`, `lastHeard`, `GivenUp`.
* `Watch`, `Watch.see`.

## Main results

* `Watch.alive_foldl_iff`.
-/

namespace TimeoutDetector

/-- What a detector learns: something has come from the peer, or it is time for a check. -/
inductive Sight
  | heard (t : ℕ)
  | check (t : ℕ)

/-- The time of a message. -/
def Sight.hearing : Sight → Option ℕ
  | heard t => some t
  | check _ => none

/-- When the peer has been heard from last. -/
def lastHeard (t₀ : ℕ) (sights : List Sight) : ℕ := (sights.filterMap Sight.hearing).getLastD t₀

/-- A check found the peer overdue, and nothing has come from it since. -/
def GivenUp (timeout : ℤ) (t₀ : ℕ) (sights : List Sight) : Prop :=
  ∃ (before : List Sight) (t : ℕ) (after : List Sight), sights = before ++ .check t :: after ∧
    timeout < t - lastHeard t₀ before ∧ ∀ u, .heard u ∉ after

section Sights

variable {timeout : ℤ} {t₀ t : ℕ} {sights : List Sight}

@[simp] theorem lastHeard_concat_heard : lastHeard t₀ (sights ++ [.heard t]) = t := by
  simp [lastHeard, Sight.hearing]

@[simp] theorem lastHeard_concat_check :
    lastHeard t₀ (sights ++ [.check t]) = lastHeard t₀ sights := by
  simp [lastHeard, Sight.hearing]

@[simp] theorem not_givenUp_nil : ¬ GivenUp timeout t₀ [] := by
  rintro ⟨before, t, after, h, -⟩
  exact List.append_ne_nil_of_right_ne_nil _ (List.cons_ne_nil _ _) h.symm

@[simp] theorem not_givenUp_concat_heard : ¬ GivenUp timeout t₀ (sights ++ [.heard t]) := by
  rintro ⟨before, u, after, h, -, hafter⟩
  rcases List.eq_nil_or_concat after with rfl | ⟨after, x, rfl⟩
  · have hlast := (List.append_inj' h rfl).2
    cases hlast
  · rw [List.concat_eq_append, ← List.cons_append, ← List.append_assoc] at h
    have hlast := List.singleton_inj.mp (List.append_inj' h rfl).2
    refine hafter t ?_
    rw [hlast, List.concat_eq_append]
    exact List.mem_append_right _ (List.mem_singleton_self _)

@[simp] theorem givenUp_concat_check : GivenUp timeout t₀ (sights ++ [.check t]) ↔
    GivenUp timeout t₀ sights ∨ timeout < t - lastHeard t₀ sights := by
  constructor
  · rintro ⟨before, u, after, h, hlate, hafter⟩
    rcases List.eq_nil_or_concat after with rfl | ⟨after, x, rfl⟩
    · obtain ⟨rfl, hlast⟩ := List.append_inj' h rfl
      cases hlast
      exact Or.inr hlate
    · rw [List.concat_eq_append, ← List.cons_append, ← List.append_assoc] at h
      obtain ⟨rfl, -⟩ := List.append_inj' h rfl
      exact Or.inl ⟨before, u, after, rfl, hlate,
        fun v hv => hafter v (List.concat_eq_append ▸ List.mem_append_left _ hv)⟩
  · rintro (⟨before, u, after, rfl, hlate, hafter⟩ | hlate)
    · refine ⟨before, u, after ++ [.check t], by simp, hlate, fun v hv => ?_⟩
      rcases List.mem_append.mp hv with hv | hv
      · exact hafter v hv
      · cases List.mem_singleton.mp hv
    · exact ⟨sights, t, [], rfl, hlate, fun v => List.not_mem_nil⟩

end Sights

/-! ### The detector -/

/-- What is kept about the peer. -/
structure Watch where
  alive : Bool
  last : ℕ

/-- The detector learns something. -/
def Watch.see (timeout : ℤ) (w : Watch) : Sight → Watch
  | .heard t => ⟨true, t⟩
  | .check t => if timeout < t - w.last ∧ w.alive then { w with alive := false } else w

namespace Watch

variable {timeout : ℤ} {w : Watch} {sights : List Sight}

theorem last_foldl (timeout : ℤ) : (sights.foldl (see timeout) w).last = lastHeard w.last sights := by
  induction sights using List.reverseRecOn with
  | nil => rfl
  | append_singleton sights x ih =>
    rw [List.foldl_append]
    cases x with
    | heard t => exact lastHeard_concat_heard.symm
    | check t =>
      rw [lastHeard_concat_check, ← ih]
      simp only [List.foldl_cons, List.foldl_nil, see]
      split_ifs <;> rfl

/-- The flag of a peer that was alive is set unless the peer has been given up. -/
theorem alive_foldl_iff (h : w.alive) :
    (sights.foldl (see timeout) w).alive ↔ ¬ GivenUp timeout w.last sights := by
  induction sights using List.reverseRecOn with
  | nil => exact iff_of_true h not_givenUp_nil
  | append_singleton sights x ih =>
    rw [List.foldl_append]
    cases x with
    | heard t => exact iff_of_true rfl not_givenUp_concat_heard
    | check t =>
      rw [givenUp_concat_check, not_or, ← ih, ← last_foldl timeout]
      simp only [List.foldl_cons, List.foldl_nil, see]
      split_ifs with hlate
      · exact ⟨fun hno => (by cases hno), fun hstill => absurd hlate.1 hstill.2⟩
      · exact ⟨fun hstill => ⟨hstill, fun hgone => hlate ⟨hgone, hstill⟩⟩, fun hstill => hstill.1⟩

end Watch

end TimeoutDetector
