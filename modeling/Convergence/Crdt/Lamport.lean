import Convergence.Crdt.Cluster

/-!
# Timestamps of orders

The timestamp of an order is the value that `VectorClock::tick` returns: the creator's own counter
after the tick. Applying a remote operation raises the other entries of the clock and never the own
one, so an order can be stamped below one that its creator has already seen. This happens in a run
exactly when a node adds an order while its own counter lags behind the timestamp of an order that
it knows.

## Main definitions

* `replicaSystem`: cluster runs with any generated ids.
* `Cluster.ClockCondition`: timestamps of orders follow causality.
* `Cluster.CaughtUp`: the own counter has reached the timestamps of the known orders.

## Main results

* `Cluster.clockCondition_step`, `Cluster.not_clockCondition_step`.
* `Cluster.clockCondition_along_iff`.
-/

namespace Convergence

open TransitionSystem VectorTime

variable {P : Type*} [LinearOrder P]

/-- A remote operation comes from a log. -/
def Cluster.FromLog (c : Cluster P) (l : Str × Call P) : Prop :=
  match l.2 with
  | .applyRemote op => ∃ n, op ∈ (c.replicas n).opLog
  | _ => True

/-- The runs of a cluster, whatever ids are generated. -/
def replicaSystem (P : Type*) [LinearOrder P] : TransitionSystem (Cluster P) (Str × Call P) where
  init := Cluster.init
  enabled := Cluster.FromLog
  step := Cluster.step

namespace Cluster

variable {c : Cluster P}

theorem CausalInv.step_of_fromLog (h : c.CausalInv) {l : Str × Call P} (hl : c.FromLog l) :
    (c.step l).CausalInv := by
  obtain ⟨n, call⟩ := l
  refine h.step fun op hcall => ?_
  subst hcall
  obtain ⟨m, hm⟩ := hl
  exact h.created_of_mem hm

theorem causalInv_of_reachable (h : (replicaSystem P).Reachable c) : c.CausalInv :=
  h.invariant .init fun _ _ _ hc hl => hc.step_of_fromLog hl

/-- An order has a larger timestamp than the orders its creator knew, and so is never ranked before
one of them. -/
def ClockCondition (c : Cluster P) : Prop :=
  ∀ a b, Direct c.history a b → a.IsAdd → b.IsAdd →
    a.order.timestamp < b.order.timestamp ∧ ¬ b.order.Before a.order

/-- When a node adds an order, its own counter has reached the timestamps of the orders it knows. -/
def CaughtUp (c : Cluster P) (l : Str × Call P) : Prop :=
  match l.2 with
  | .addOrder .. => ∀ op ∈ (c.replicas l.1).opLog, op.IsAdd →
    op.order.timestamp ≤ (c.replicas l.1).clock.get l.1
  | _ => True

omit [LinearOrder P] in
theorem timestamp_lt_iff {a b : Operation P} : (a.order.timestamp < b.order.timestamp ∧
    ¬ b.order.Before a.order) ↔ a.order.timestamp < b.order.timestamp :=
  ⟨And.left, fun h => ⟨h, (Order.before_of_timestamp_lt h).asymm⟩⟩

/-- An added order is stamped with the counter after the tick. -/
theorem CausalInv.timestamp_eq (h : c.CausalInv) {n : Str} {call : Call P} {op : Operation P}
    (hop : call.Issues (c.replicas n) op) (hadd : op.IsAdd) :
    op.order.timestamp = (c.replicas n).clock.get n + 1 := by
  obtain ⟨_, _, _, _, _, -, rfl⟩ | ⟨_, _, _, -, rfl⟩ := hop.cases
  · change (c.replicas n).clock.tick.2 = _
    rw [VectorClock.snd_tick, h.clock_nodeId]
  · exact absurd hadd (Operation.IsCancel.not_isAdd rfl)

theorem clockCondition_step (h : c.CausalInv) (hc : c.ClockCondition) {l : Str × Call P}
    (hl : c.CaughtUp l) : (c.step l).ClockCondition := by
  obtain ⟨n, call⟩ := l
  intro a b hd ha hb
  rw [timestamp_lt_iff]
  obtain hh | ⟨op, hop, hh⟩ | ⟨op, -, hh⟩ := h.history_step n call
  · exact (hc a b (hh ▸ hd) ha hb).1
  · rcases direct_append.mp (hh ▸ hd) with hd | ⟨m, he, hk⟩
    · exact (hc a b hd ha hb).1
    · obtain ⟨rfl, rfl⟩ : n = m ∧ op = b := by simpa using he
      obtain ⟨_, _, _, _, _, rfl, -⟩ | ⟨_, _, _, -, rfl⟩ := hop.cases
      · rw [h.timestamp_eq hop hb]
        exact Nat.lt_succ_of_le (hl a ((h.log_iff n a).mpr hk) ha)
      · exact absurd hb (Operation.IsCancel.not_isAdd rfl)
  · rcases direct_append.mp (hh ▸ hd) with hd | ⟨m, he, -⟩
    · exact (hc a b hd ha hb).1
    · simp at he

/-- An order that is added before the counter has caught up breaks the condition at once. -/
theorem not_clockCondition_step (h : c.CausalInv) {l : Str × Call P} (hl : ¬ c.CaughtUp l) :
    ¬ (c.step l).ClockCondition := by
  obtain ⟨n, call⟩ := l
  cases call with
  | addOrder side price q oid opId =>
    simp only [CaughtUp, not_forall] at hl
    obtain ⟨a, ha, hadd, hlt⟩ := hl
    obtain ⟨op, hop, hadd', hh⟩ : ∃ op,
        (Call.addOrder side price q oid opId).Issues (c.replicas n) op ∧ op.IsAdd ∧
          (c.step (n, .addOrder side price q oid opId)).history =
          c.history ++ [.created n op] :=
      ⟨_, rfl, rfl, by rw [step_eq [_] rfl rfl]; rfl⟩
    intro hc
    have hd : Direct (c.step (n, .addOrder side price q oid opId)).history a op :=
      hh ▸ direct_append.mpr (Or.inr ⟨n, rfl, (h.log_iff n a).mp ha⟩)
    have hlt' := (hc a op hd hadd hadd').1
    rw [h.timestamp_eq hop hadd'] at hlt'
    omega
  | cancelOrder => exact absurd trivial hl
  | marketOrder => exact absurd trivial hl
  | applyRemote => exact absurd trivial hl

/-- **Lamport's clock condition.** Along every run of a cluster, orders are stamped in line with
causality in every state exactly when, at every addition, the node's own counter has reached the
timestamps of the orders it knows. -/
theorem clockCondition_along_iff {ls : List (Str × Call P)}
    (h : (replicaSystem P).Enables (replicaSystem P).init ls) :
    (replicaSystem P).Along ClockCondition (replicaSystem P).init ls ↔
      (replicaSystem P).Guarded CaughtUp (replicaSystem P).init ls := by
  refine along_iff_guarded (I := fun c : Cluster P => c.CausalInv ∧ c.ClockCondition)
    (fun c hc => hc.2)
    (fun c l hc hl hg => ⟨hc.1.step_of_fromLog hl, clockCondition_step hc.1 hc.2 hg⟩)
    (fun c l hc _ hg => not_clockCondition_step hc.1 hg) ⟨.init, fun a b hd => ?_⟩ h
  obtain ⟨_, h₁, h₂, heq, -⟩ := hd
  simp [replicaSystem, Cluster.init] at heq

/-! ### Two nodes -/

/-- Both nodes add an order, the second applies the order of the first, and adds another one. -/
theorem clockCondition_along_iff_caughtUp :
    let a : Operation ℤ := ⟨OpType.addOrder, ⟨[97], [65], Side.buy, 100, 5, 5, 1, false⟩, [], [65],
      (VectorClock.new [65]).tick.1, [1]⟩
    let ls : List (Str × Call ℤ) := [([65], .addOrder Side.buy 100 5 [97] [1]),
      ([66], .addOrder Side.buy 100 5 [98] [2]), ([66], .applyRemote a),
      ([66], .addOrder Side.buy 100 5 [99] [3])]
    (replicaSystem ℤ).Along ClockCondition (replicaSystem ℤ).init ls ↔
      (replicaSystem ℤ).Guarded CaughtUp (replicaSystem ℤ).init ls := by
  intro a ls
  exact clockCondition_along_iff ⟨trivial, trivial, ⟨[65], List.mem_cons_self⟩, trivial, trivial⟩

/-- The first node adds two orders. The second node applies only the later one, whose timestamp is
`2`, and then adds an order with the timestamp `1`. -/
theorem not_clockCondition_of_reachable :
    ∃ c, (replicaSystem ℤ).Reachable c ∧ ¬ c.ClockCondition := by
  let b : Operation ℤ := ⟨OpType.addOrder, ⟨[98], [65], Side.buy, 100, 5, 5, 2, false⟩, [], [65],
    (VectorClock.new [65]).tick.1.tick.1, [2]⟩
  have h₁ := Reachable.init (T := replicaSystem ℤ) |>.step
    ([65], .addOrder Side.buy 100 5 [97] [1]) trivial
  have h₂ := h₁.step ([65], .addOrder Side.buy 100 5 [98] [2]) trivial
  have h₃ := h₂.step ([66], .applyRemote b) ⟨[65], List.mem_cons_of_mem _ List.mem_cons_self⟩
  have h₄ := h₃.step ([66], .addOrder Side.buy 100 5 [99] [3]) trivial
  refine ⟨_, h₄, not_clockCondition_step (causalInv_of_reachable h₃) fun hcaught => ?_⟩
  have hle := hcaught b List.mem_cons_self rfl
  revert hle
  decide

end Cluster

end Convergence
