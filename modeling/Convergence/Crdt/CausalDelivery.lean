import Convergence.Crdt.CancelledOrders
import Convergence.Library.CausalList

/-!
# Lists of operations that leave no gap

While a cluster has no gaps, the log of every replica is in causal order. What one replica sends
another can then be applied from front to back without a gap, if it leaves out only what the other
one knows: so do the answer to a request, whole or cut off behind, and the end of a log whose front
the other one has.

## Main definitions

* `Cluster.Deliverable`: a replica can apply the operations in the order given.
* `Cluster.CausalLogs`: clusters without gaps, with their logs in causal order.

## Main results

* `Cluster.CausalLogs.step`.
* `Cluster.CausalLogs.deliverable_getOperationsSince`, `Cluster.CausalLogs.deliverable_drop`.
* `Cluster.CausalLogs.known_or_mem`: an answer is complete for the one who asked, however late.
-/

namespace Convergence

open TransitionSystem VectorTime

variable {P : Type*} [LinearOrder P]

namespace Cluster

variable {c : Cluster P} {n m : Str} {call : Call P} {ops ops' : List (Operation P)}
  {op : Operation P}

/-! ### What steps keep -/

theorem mem_history_step {e : Event Str (Operation P)} (he : e ∈ c.history) (l : Str × Call P) :
    e ∈ (c.step l).history := List.mem_append_left _ he

theorem known_step (h : Known c.history m op) (l : Str × Call P) :
    Known (c.step l).history m op :=
  h.imp (mem_history_step · l) (mem_history_step · l)

/-- Clocks only advance. -/
theorem CausalInv.clocks_le_step (h : c.CausalInv) (l : Str × Call P) (m : Str) :
    c.clocks m ≤ (c.step l).clocks m := by
  obtain ⟨n, call⟩ := l
  have hupdate {r : CRDTOrderBook P} {hist : List (Event Str (Operation P))}
      (hle : c.clocks n ≤ r.clock.get) :
      c.clocks m ≤ clocks ⟨Function.update c.replicas n r, hist⟩ m := by
    rw [CausalInv.clocks_update]
    exact le_update hle m
  have htick (b : OrderBook P) : c.clocks n ≤ ((c.replicas n).ticked b).clock.get := by
    rw [CRDTOrderBook.clock_ticked, VectorClock.get_tick, h.clock_nodeId]
    exact le_tick n _
  obtain heq | ⟨b, -, heq⟩ | ⟨b, op, -, -, heq⟩ | ⟨op, -, hseen, heq⟩ := h.step_cases n call
  · rw [heq]
  · rw [heq]
    exact hupdate (htick b)
  · rw [heq]
    exact hupdate (htick b)
  · rw [heq]
    refine hupdate ?_
    rw [CRDTOrderBook.clock_applyRemoteOperation hseen, VectorClock.get_merge]
    exact le_sup_left

/-- New operations are below none of the earlier ones. -/
theorem CausalInv.causallyClosed_step (h : c.CausalInv) {known : Operation P → Prop}
    (hc : CausallyClosed Operation.stamp c.history known ops)
    (hops : ∀ op ∈ ops, Created c.history op) (l : Str × Call P) :
    CausallyClosed Operation.stamp (c.step l).history known ops := by
  obtain ⟨n, call⟩ := l
  rcases h.history_step n call with heq | ⟨op, hop, heq⟩ | ⟨op, -, heq⟩
  · rwa [heq]
  · rw [heq]
    refine hc.create fun x hx hlt => ?_
    exact (h.stamp_lt_of_issues hop (hops x hx)).not_ge (hlt.le n)
  · rw [heq]
    exact CausallyClosed.observe_iff.mpr hc

/-! ### Operations that a replica can apply in order -/

/-- The operations were created, and the replica `m` can apply them in this order without a gap. -/
structure Deliverable (c : Cluster P) (m : Str) (ops : List (Operation P)) : Prop where
  created : ∀ op ∈ ops, Created c.history op
  closed : CausallyClosed Operation.stamp c.history (Known c.history m) ops

namespace Deliverable

theorem nil : c.Deliverable m [] := ⟨fun _ hop => absurd hop List.not_mem_nil, .nil⟩

theorem front (h : c.Deliverable m ops) (hle : ops' <+: ops) : c.Deliverable m ops' :=
  ⟨fun op hop => h.created op (hle.subset hop), h.closed.front hle⟩

theorem step (h : c.Deliverable m ops) (hc : c.CausalInv) (l : Str × Call P) :
    (c.step l).Deliverable m ops :=
  ⟨fun op hop => (h.created op hop).imp fun _ he => mem_history_step he l,
    (hc.causallyClosed_step h.closed h.created l).mono fun _ hk => known_step hk l⟩

/-- The first operation leaves no gap. -/
theorem gapFreeDelivery (h : c.Deliverable m (op :: ops)) (hc : c.Inv) :
    c.GapFreeDelivery (m, .applyRemote op) := by
  intro k a ha hbefore
  have hcreated := hc.created_of_mem ha
  have hknown := h.closed.head a hcreated (VectorClock.happensBefore_iff.mp hbefore)
  exact (hc.seen_iff_known hcreated).mpr hknown

/-- After the first operation the others are next. -/
theorem tail (h : c.Deliverable m (op :: ops)) (hc : c.Inv) :
    (c.step (m, .applyRemote op)).Deliverable m ops := by
  have hcreated : Created c.history op := h.created op List.mem_cons_self
  have hops (a : Operation P) (ha : a ∈ ops) : Created c.history a :=
    h.created a (List.mem_cons_of_mem _ ha)
  have hop : Known (c.step (m, .applyRemote op)).history m op := by
    by_cases hseen : op.opId ∈ (c.replicas m).seenOps
    · exact known_step ((hc.seen_iff_known hcreated).mp hseen) _
    · have hstep : c.step (m, .applyRemote op) = ⟨Function.update c.replicas m
          ((c.replicas m).applyRemoteOperation op).1, c.history ++ [.observed m op]⟩ :=
        step_eq [op] rfl (CRDTOrderBook.opLog_applyRemoteOperation hseen)
      rw [hstep]
      exact Or.inr (List.mem_append_right _ List.mem_cons_self)
  refine ⟨fun a ha => (hops a ha).imp fun _ he => mem_history_step he _, ?_⟩
  refine (hc.causal.causallyClosed_step h.closed.tail hops _).mono ?_
  rintro a (hk | rfl)
  · exact known_step hk _
  · exact hop

end Deliverable

/-- What a later state of a cluster keeps. -/
structure Grows (c c' : Cluster P) : Prop where
  clocks_le : ∀ m, c.clocks m ≤ c'.clocks m
  deliverable : ∀ m ops, c.Deliverable m ops → c'.Deliverable m ops

theorem Grows.refl (c : Cluster P) : c.Grows c := ⟨fun _ => le_rfl, fun _ _ h => h⟩

theorem CausalInv.grows_step (h : c.CausalInv) (l : Str × Call P) : c.Grows (c.step l) :=
  ⟨h.clocks_le_step l, fun _ _ hd => hd.step h l⟩

/-! ### Logs in causal order -/

/-- No replica has a gap, and every operation in a log comes after those with smaller stamps. -/
structure CausalLogs (c : Cluster P) : Prop extends c.ClientInv where
  cancelsKnown : c.CancelsKnown
  cancellations : ∀ m, (c.replicas m).CancellationsHold
  gapFree : GapFree Operation.stamp c.history
  closed : ∀ m, CausallyClosed Operation.stamp c.history (fun _ => False) (c.replicas m).opLog

namespace CausalLogs

theorem init : (Cluster.init : Cluster P).CausalLogs where
  toClientInv := .init
  cancelsKnown := .init
  cancellations _ _ hop := absurd hop List.not_mem_nil
  gapFree := .nil
  closed _ := .nil

/-- What is last in a log of a cluster without gaps comes after everything with a smaller stamp. -/
private theorem closed_append (hc : c.Inv) (hg : GapFree Operation.stamp c.history)
    (hlog : (c.replicas n).opLog = ops ++ [op])
    (hops : CausallyClosed Operation.stamp c.history (fun _ => False) ops) :
    CausallyClosed Operation.stamp c.history (fun _ => False) (c.replicas n).opLog := by
  rw [hlog]
  refine CausallyClosed.append_singleton_iff.mpr ⟨hops, fun a ha hlt => Or.inl ?_⟩
  have hop : op ∈ (c.replicas n).opLog := hlog ▸ List.mem_append_right _ List.mem_cons_self
  have hmem := (hc.log_iff n a).mpr (hg n a op ha ((hc.log_iff n op).mp hop) hlt)
  rw [hlog] at hmem
  refine (List.mem_append.mp hmem).resolve_right fun heq => ?_
  exact (List.mem_singleton.mp heq ▸ hlt).false

theorem step (h : c.CausalLogs) (l : Str × Call P) (hl : (clientSystem P).enabled c l)
    (hdelivery : c.GapFreeDelivery l) : (c.step l).CausalLogs := by
  have hinv := h.toClientInv.step l hl.1 hl.2
  have hgap := gapFree_step h.toInv h.gapFree hdelivery
  have hfirst := additionFirst_of_gapFree h.toClientInv h.cancelsKnown h.gapFree hl.1
  refine ⟨hinv, h.cancelsKnown.step h.toInv l,
    cancellationsHold_step h.toClientInv h.cancelsKnown h.cancellations hl.1 hfirst, hgap,
    fun m => ?_⟩
  obtain ⟨n, call⟩ := l
  have hold (m : Str) : CausallyClosed Operation.stamp (c.step (n, call)).history (fun _ => False)
      (c.replicas m).opLog :=
    h.causal.causallyClosed_step (h.closed m) (fun _ hop => h.created_of_mem hop) (n, call)
  by_cases hm : m = n
  · subst hm
    have hreplica : (c.step (m, call)).replicas m = call.run (c.replicas m) :=
      Function.update_self ..
    have happend {op : Operation P}
        (hlog : (call.run (c.replicas m)).opLog = (c.replicas m).opLog ++ [op]) :
        CausallyClosed Operation.stamp (c.step (m, call)).history (fun _ => False)
          ((c.step (m, call)).replicas m).opLog :=
      closed_append hinv.toInv hgap (hreplica ▸ hlog) (hold m)
    have hnext := (h.wellFormed m).next call
    generalize hr : call.run (c.replicas m) = r at hnext hreplica happend
    cases hnext with
    | same => exact hreplica ▸ hold m
    | ticked => exact hreplica ▸ hold m
    | issued => exact happend rfl
    | applied _ hseen => exact happend (CRDTOrderBook.opLog_applyRemoteOperation hseen)
  · have hreplica : (c.step (n, call)).replicas m = c.replicas m := Function.update_of_ne hm ..
    exact hreplica ▸ hold m

variable (h : c.CausalLogs)

include h

/-- A clock that a replica had does not hide what the replica is missing. -/
theorem known_of_le {v : VectorClock} (hv : v.get ≤ c.clocks m) (hop : Created c.history op)
    (hle : op.clock.get ≤ v.get) : Known c.history m op :=
  h.gapFree.known_of_stamp_le h.run hop (hle.trans hv)

/-- What the answer to a request leaves out, the one who asked knows, also when the request is
old. -/
theorem known_or_mem {v : VectorClock} (hv : v.get ≤ c.clocks m)
    (hop : op ∈ (c.replicas n).opLog) :
    Known c.history m op ∨ op ∈ (c.replicas n).getOperationsSince v := by
  by_cases hle : op.clock.get ≤ v.get
  · exact Or.inl (h.known_of_le hv (h.created_of_mem hop) hle)
  · exact Or.inr (CRDTOrderBook.mem_getOperationsSince hop hle)

/-- The answer to a request can be applied by the one who asked. -/
theorem deliverable_getOperationsSince {v : VectorClock} (hv : v.get ≤ c.clocks m) (n : Str) :
    c.Deliverable m ((c.replicas n).getOperationsSince v) where
  created _ hop := h.created_of_mem (List.mem_filter.mp hop).1
  closed := by
    refine ((h.closed n).mono fun _ hf => hf.elim).filter _ fun a ha hout => ?_
    refine (h.known_or_mem hv ha).resolve_right fun hin => ?_
    rw [(List.mem_filter.mp hin).2] at hout
    cases hout

/-- The end of a log can be applied by a replica that knows the front. -/
theorem deliverable_drop {k : ℕ}
    (hk : ∀ op ∈ (c.replicas n).opLog.take k, op.opId ∈ (c.replicas m).seenOps) :
    c.Deliverable m ((c.replicas n).opLog.drop k) where
  created _ hop := h.created_of_mem (List.mem_of_mem_drop hop)
  closed := ((h.closed n).mono fun _ hf => hf.elim).drop fun a ha =>
    (h.seen_iff_known (h.created_of_mem (List.mem_of_mem_take ha))).mp (hk a ha)

end CausalLogs

end Cluster

end Convergence
