import Convergence.Crdt.Cluster
import Mathlib.Data.List.MinMax

/-!
# Logs, seen ids and clocks of a cluster

The four entry points of a replica each update its log, its seen ids and its clock, and return early
in different places. As long as generated operation ids are new, the three stay in step: a log has
no id twice, its ids are the seen ones, its entries are the operations as their origins created
them, and the clock is the join of the clocks in the log, apart from the replica's own entry, which
is ahead of everybody's.

## Main definitions

* `logSystem`: cluster runs with new operation ids; order ids may be used again.
* `OrderedLog`: what a log looks like from its own replica.
* `Cluster.LogsAgree`.

## Main results

* `Cluster.LogInv.step`, `Cluster.CausalInv.get_clock_eq`.
* `Cluster.logsAgree_of_reachable`.
-/

namespace Convergence

open TransitionSystem VectorTime

variable {P : Type*} [LinearOrder P]

namespace Cluster

/-- Generated operation ids are new to the cluster, and a remote operation comes from a log. -/
def OpIdsFresh (c : Cluster P) (l : Str × Call P) : Prop :=
  match l.2 with
  | .addOrder _ _ _ _ opId => c.FreshOpId opId
  | .cancelOrder _ opId _ => c.FreshOpId opId
  | .marketOrder _ _ gen =>
    (Function.Injective fun i => (gen i).1) ∧ ∀ i, c.FreshOpId (gen i).1
  | .applyRemote op => ∃ n, op ∈ (c.replicas n).opLog

end Cluster

/-- The runs of a cluster with new operation ids. -/
def logSystem (P : Type*) [LinearOrder P] : TransitionSystem (Cluster P) (Str × Call P) where
  init := Cluster.init
  enabled := Cluster.OpIdsFresh
  step := Cluster.step

theorem Call.Issues.freshOpId {c : Cluster P} {n : Str} {call : Call P} {op : Operation P}
    (h : call.Issues (c.replicas n) op) (hl : c.OpIdsFresh (n, call)) : c.FreshOpId op.opId := by
  obtain ⟨_, _, _, _, _, rfl, rfl⟩ | ⟨_, _, _, rfl, rfl⟩ := h.cases
  · exact hl
  · exact hl

/-! ### The order of a log -/

/-- No id occurs twice, and the entries of the replica itself have increasing counters. -/
structure OrderedLog (n : Str) (log : List (Operation P)) : Prop where
  nodup : (log.map Operation.opId).Nodup
  increasing : (log.filter fun op => op.originNode = n).Pairwise fun a b =>
    a.clock.get n < b.clock.get n

namespace OrderedLog

variable {n : Str} {log : List (Operation P)}

omit [LinearOrder P] in
theorem nil : OrderedLog n ([] : List (Operation P)) := ⟨List.nodup_nil, .nil⟩

omit [LinearOrder P] in
/-- An operation with a new id, and with a new counter when it is the replica's own. -/
theorem append (h : OrderedLog n log) {op : Operation P} (hid : ∀ a ∈ log, a.opId ≠ op.opId)
    (hlt : op.originNode = n → ∀ a ∈ log, a.clock.get n < op.clock.get n) :
    OrderedLog n (log ++ [op]) where
  nodup := by
    rw [List.map_append, List.map_singleton, List.nodup_append']
    refine ⟨h.nodup, List.nodup_singleton _, ?_⟩
    rw [List.disjoint_singleton]
    intro hmem
    obtain ⟨a, ha, heq⟩ := List.mem_map.mp hmem
    exact hid a ha heq
  increasing := by
    rw [List.filter_append, List.pairwise_append]
    refine ⟨h.increasing, List.pairwise_singleton _ _ |>.filter _, fun a ha b hb => ?_⟩
    obtain ⟨hb, horigin⟩ := List.mem_filter.mp hb
    obtain rfl := List.mem_singleton.mp hb
    exact hlt (of_decide_eq_true horigin) a (List.mem_filter.mp ha).1

end OrderedLog

namespace Cluster

variable {c : Cluster P}

/-! ### The invariant -/

/-- The invariant of a cluster with new operation ids. -/
structure LogInv (c : Cluster P) : Prop extends CausalInv c where
  opId_inj : ∀ a b, Created c.history a → Created c.history b → a.opId = b.opId → a = b
  ordered : ∀ n, OrderedLog n (c.replicas n).opLog

namespace LogInv

theorem init : (Cluster.init : Cluster P).LogInv where
  toCausalInv := .init
  opId_inj a _ ha := by simp [Cluster.init, Created] at ha
  ordered _ := .nil

private theorem ordered_update (h : c.LogInv) {n : Str} {r : CRDTOrderBook P}
    (hr : OrderedLog n r.opLog) (m : Str) :
    OrderedLog m (Function.update c.replicas n r m).opLog :=
  (Function.forall_update_iff _ fun m r => OrderedLog m (CRDTOrderBook.opLog r)).mpr
    ⟨hr, fun m _ => h.ordered m⟩ m

theorem ordered_step (h : c.LogInv) {n : Str} {call : Call P} (hl : c.OpIdsFresh (n, call))
    (m : Str) : OrderedLog m ((c.step (n, call)).replicas m).opLog := by
  obtain heq | ⟨b, -, heq⟩ | ⟨b, op, hop, -, heq⟩ | ⟨op, rfl, hseen, heq⟩ := h.step_cases n call
  · rw [heq]
    exact h.ordered m
  · have hr : OrderedLog n ((c.replicas n).ticked b).opLog := h.ordered n
    rw [heq]
    exact h.ordered_update hr m
  · have hr : OrderedLog n (((c.replicas n).ticked b).log op).opLog :=
      (h.ordered n).append (hop.freshOpId hl n) fun _ a ha =>
        h.stamp_lt_of_issues hop (h.created_of_mem ha)
    rw [heq]
    exact h.ordered_update hr m
  · obtain ⟨k, hk⟩ := hl
    rw [heq]
    refine h.ordered_update ?_ m
    rw [CRDTOrderBook.opLog_applyRemoteOperation hseen]
    refine (h.ordered n).append (fun a ha hid => ?_) fun horigin => ?_
    · exact hseen (((h.wellFormed n).seen_iff _).mpr ⟨a, ha, hid⟩)
    · -- A replica has seen what it has created.
      obtain ⟨x, hx⟩ := h.created_of_mem hk
      obtain rfl : n = x := horigin.symm.trans (h.origin x op hx)
      have hmem : op ∈ (c.replicas n).opLog := (h.log_iff n op).mpr (Or.inl hx)
      exact absurd (((h.wellFormed n).seen_iff _).mpr ⟨op, hmem, rfl⟩) hseen

theorem step (h : c.LogInv) (l : Str × Call P) (hl : c.OpIdsFresh l) : (c.step l).LogInv := by
  obtain ⟨n, call⟩ := l
  refine ⟨h.toCausalInv.step fun op hcall => ?_, fun a b ha hb heq => ?_, h.ordered_step hl⟩
  · subst hcall
    obtain ⟨m, hm⟩ := hl
    exact h.created_of_mem hm
  · refine h.key_inj_step (fun _ => True) Operation.opId (fun x y hx hy _ _ => h.opId_inj x y hx hy)
      (fun op hop _ x hx _ => ?_) a b ha hb trivial trivial heq
    obtain ⟨m, hm⟩ := h.mem_of_created hx
    exact hop.freshOpId hl m x hm

end LogInv

theorem logInv_of_reachable (h : (logSystem P).Reachable c) : c.LogInv :=
  h.invariant .init fun _ l _ hc hl => hc.step l hl

/-! ### Clocks as joins -/

/-- What a clock says about another node is the largest entry in the log. -/
theorem CausalInv.get_clock_eq (h : c.CausalInv) {x y : Str} (hne : y ≠ x) :
    (c.replicas x).clock.get y =
      ((c.replicas x).opLog.map fun op => op.clock.get y).foldr max 0 := by
  refine le_antisymm ?_ (List.max_le_of_forall_le _ _ fun k hk => ?_)
  · rcases Nat.eq_zero_or_pos (c.clocks x y) with hzero | hpos
    · exact hzero.trans_le (Nat.zero_le _)
    · obtain ⟨op, hop, hle⟩ := h.run.exists_known_of_pos hne hpos
      exact List.le_max_of_le (List.mem_map_of_mem ((h.log_iff x op).mpr hop)) hle
  · obtain ⟨op, hop, rfl⟩ := List.mem_map.mp hk
    exact h.run.stamp_le_of_known ((h.log_iff x op).mp hop) y

/-- The log, the seen ids and the clock of the replica `x` agree with each other and with the
cluster. -/
structure LogsAgree (c : Cluster P) (x : Str) : Prop where
  nodup : ((c.replicas x).opLog.map Operation.opId).Nodup
  seen_iff : ∀ id, id ∈ (c.replicas x).seenOps ↔ ∃ op ∈ (c.replicas x).opLog, op.opId = id
  created : ∀ op ∈ (c.replicas x).opLog, Event.created op.originNode op ∈ c.history ∧
    op ∈ (c.replicas op.originNode).opLog
  as_created : ∀ op ∈ (c.replicas x).opLog, ∀ n a, Event.created n a ∈ c.history →
    a.opId = op.opId → n = op.originNode ∧ a = op
  clock_other : ∀ y, y ≠ x → (c.replicas x).clock.get y =
    ((c.replicas x).opLog.map fun op => op.clock.get y).foldr max 0
  clock_own : ∀ n, ∀ op ∈ (c.replicas n).opLog, op.clock.get x ≤ (c.replicas x).clock.get x
  own_increasing : ((c.replicas x).opLog.filter fun op => op.originNode = x).Pairwise fun a b =>
    a.clock.get x < b.clock.get x

/-- **Log, seen ids and clock.** In every reachable state of a cluster, a replica's log, seen ids
and clock agree. -/
theorem logsAgree_of_reachable (h : (logSystem P).Reachable c) (x : Str) : c.LogsAgree x := by
  have hc := logInv_of_reachable h
  refine
    { nodup := (hc.ordered x).nodup
      seen_iff := (hc.wellFormed x).seen_iff
      created := fun op hop => ?_
      as_created := fun op hop n a ha hid => ?_
      clock_other := fun y hne => hc.get_clock_eq hne
      clock_own := fun n op hop => hc.run.counter_le_own.2 op (hc.created_of_mem hop) x
      own_increasing := (hc.ordered x).increasing }
  · obtain ⟨n, hn⟩ := hc.created_of_mem hop
    obtain rfl := hc.origin n op hn
    exact ⟨hn, (hc.log_iff _ op).mpr (Or.inl hn)⟩
  · obtain rfl := hc.opId_inj a op ⟨n, ha⟩ (hc.created_of_mem hop) hid
    exact ⟨(hc.origin n a ha).symm, rfl⟩

/-- An order added at one node and applied at another. -/
theorem logsAgree_of_reachable_applied :
    let a : Operation ℤ := ⟨OpType.addOrder, ⟨[97], [49], Side.buy, 100, 5, 5, 1, false⟩, [], [49],
      (VectorClock.new [49]).tick.1, [1]⟩
    (((Cluster.init : Cluster ℤ).step ([49], .addOrder Side.buy 100 5 [97] [1])).step
      ([50], .applyRemote a)).LogsAgree [50] := by
  intro a
  have h₁ := Reachable.init (T := logSystem ℤ) |>.step
    ([49], .addOrder Side.buy 100 5 [97] [1]) (init_freshOpId [1])
  have h₂ := h₁.step ([50], .applyRemote a) ⟨[49], List.mem_cons_self⟩
  exact logsAgree_of_reachable h₂ [50]

end Cluster

end Convergence
