import Convergence.Crdt.Lamport

/-!
# Clocks characterise causality

In a cluster an operation causally precedes another when the origin of the second had created or
applied the first before it created the second, or when a chain of such steps leads from the one to
the other. `happens_before` on the clocks of two operations decides this, whatever ids are
generated.

## Main results

* `Cluster.happensBefore_iff_precedes`.
-/

namespace Convergence

open TransitionSystem VectorTime

namespace Cluster

variable {P : Type*} [LinearOrder P] {c : Cluster P}

/-- **Operation clocks characterise causality.** For distinct operations in logs, the clock of the
first happens before the clock of the second if and only if the first causally precedes the
second. -/
theorem happensBefore_iff_precedes (h : (replicaSystem P).Reachable c) {n m : Str}
    {a b : Operation P} (ha : a ∈ (c.replicas n).opLog) (hb : b ∈ (c.replicas m).opLog)
    (hne : a ≠ b) : a.clock.happensBefore b.clock = true ↔ Precedes c.history a b := by
  have hc := causalInv_of_reachable h
  rw [VectorClock.happensBefore_iff]
  exact (hc.run.precedes_iff_stamp_lt (hc.created_of_mem ha) (hc.created_of_mem hb) hne).symm

/-- Two orders added at one node under the same id. -/
theorem happensBefore_iff_precedes_twice :
    let a : Operation ℤ := ⟨OpType.addOrder, ⟨[97], [49], Side.buy, 100, 5, 5, 1, false⟩, [], [49],
      (VectorClock.new [49]).tick.1, [1]⟩
    let b : Operation ℤ := ⟨OpType.addOrder, ⟨[97], [49], Side.sell, 101, 7, 7, 2, false⟩, [], [49],
      (VectorClock.new [49]).tick.1.tick.1, [1]⟩
    a.clock.happensBefore b.clock = true ↔
      Precedes [Event.created ([49] : Str) a, Event.created [49] b] a b := by
  intro a b
  have h₁ := Reachable.init (T := replicaSystem ℤ) |>.step
    ([49], .addOrder Side.buy 100 5 [97] [1]) trivial
  have h₂ := h₁.step ([49], .addOrder Side.sell 101 7 [97] [1]) trivial
  obtain ⟨c, hc, hlog, hhist⟩ : ∃ c, (replicaSystem ℤ).Reachable c ∧
      (c.replicas [49]).opLog = [a, b] ∧
      c.history = [Event.created [49] a, Event.created [49] b] := ⟨_, h₂, rfl, rfl⟩
  have ha : a ∈ (c.replicas [49]).opLog := hlog ▸ List.mem_cons_self
  have hb : b ∈ (c.replicas [49]).opLog := hlog ▸ List.mem_cons_of_mem _ List.mem_cons_self
  rw [← hhist]
  exact happensBefore_iff_precedes hc ha hb (by decide)

end Cluster

end Convergence
