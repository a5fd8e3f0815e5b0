import Convergence.Crdt.Cluster

/-!
# Anti-entropy

A replica asks a peer for what it is missing by sending its clock, and the peer answers with the
operations whose clocks the request does not dominate. The clock of the request is the join of all
the clocks applied so far, so it can hide an operation that was never received: applying an
operation whose causal predecessors are missing puts them out of the reach of every later request.
The answers are complete along a run exactly when every delivery finds its predecessors applied.

## Main definitions

* `Cluster.AntiEntropyComplete`.
* `Cluster.GapFreeDelivery`: the predecessors of a delivered operation are applied.

## Main results

* `Cluster.gapFree_step`, `Cluster.antiEntropyComplete_of_gapFree`,
  `Cluster.not_complete_of_gap`.
* `Cluster.antiEntropyComplete_along_iff`.
-/

namespace Convergence

open TransitionSystem VectorTime

namespace Cluster

variable {P : Type*} [LinearOrder P] {c : Cluster P}

/-- Between any two replicas, the answer to an anti-entropy request holds every operation that the
one who asks has not seen, so that after applying it nothing is missing. -/
structure AntiEntropyComplete (c : Cluster P) : Prop where
  answered : ∀ p q, ∀ op ∈ (c.replicas q).opLog, op.opId ∉ (c.replicas p).seenOps →
    op ∈ (c.replicas q).getOperationsSince (c.replicas p).clock
  caughtUp : ∀ p q, ∀ op ∈ (c.replicas q).opLog, op.opId ∈
    ((c.replicas p).replay ((c.replicas q).getOperationsSince (c.replicas p).clock)).seenOps

/-- A delivered operation finds applied all the operations whose clocks happen before its own. The
other calls are not restricted. -/
def GapFreeDelivery (c : Cluster P) (l : Str × Call P) : Prop :=
  match l.2 with
  | .applyRemote op => ∀ m, ∀ a ∈ (c.replicas m).opLog, a.clock.happensBefore op.clock = true →
    a.opId ∈ (c.replicas l.1).seenOps
  | _ => True

/-! ### Gap-free histories -/

namespace Inv

theorem seen_iff_known (h : c.Inv) {n : Str} {a : Operation P} (ha : Created c.history a) :
    a.opId ∈ (c.replicas n).seenOps ↔ Known c.history n a := by
  rw [(h.wellFormed n).seen_iff]
  constructor
  · rintro ⟨op, hop, hid⟩
    obtain rfl := h.opId_inj op a (h.created_of_mem hop) ha hid
    exact (h.log_iff n op).mp hop
  · intro hk
    exact ⟨a, (h.log_iff n a).mpr hk, rfl⟩

end Inv

theorem gapFree_step (h : c.Inv) (hg : GapFree Operation.stamp c.history) {l : Str × Call P}
    (hl : c.GapFreeDelivery l) : GapFree Operation.stamp (c.step l).history := by
  obtain ⟨n, call⟩ := l
  rcases h.causal.history_step n call with heq | ⟨op, hop, heq⟩ | ⟨op, rfl, heq⟩
  · rwa [heq]
  · rw [heq]
    exact hg.create h.run (h.causal.stamp_eq hop)
  · rw [heq]
    refine hg.observe fun a ha hlt => ?_
    obtain ⟨m, hm⟩ := h.causal.mem_of_created ha
    exact (h.seen_iff_known ha).mp (hl m a hm (VectorClock.happensBefore_iff.mpr hlt))

/-- In a gap-free history the clock of a replica hides nothing that is missing. -/
theorem antiEntropyComplete_of_gapFree (h : c.Inv) (hg : GapFree Operation.stamp c.history) :
    c.AntiEntropyComplete := by
  have hanswered : ∀ p q, ∀ op ∈ (c.replicas q).opLog, op.opId ∉ (c.replicas p).seenOps →
      op ∈ (c.replicas q).getOperationsSince (c.replicas p).clock := by
    intro p q op hop hseen
    have hcreated := h.created_of_mem hop
    have hnot : ¬ op.stamp ≤ c.clocks p := fun hle =>
      hseen ((h.seen_iff_known hcreated).mpr (hg.known_of_stamp_le h.run hcreated hle))
    exact CRDTOrderBook.mem_getOperationsSince hop hnot
  refine ⟨hanswered, fun p q op hop => ?_⟩
  rw [CRDTOrderBook.mem_seenOps_replay]
  by_cases hseen : op.opId ∈ (c.replicas p).seenOps
  · exact Or.inl hseen
  · exact Or.inr ⟨op, hanswered p q op hop hseen, rfl⟩

/-- The first delivery with a gap puts the missing operation out of reach. -/
theorem not_complete_of_gap (h : c.Inv) (hg : GapFree Operation.stamp c.history) {l : Str × Call P}
    (hl : c.Enabled l) (hgap : ¬ c.GapFreeDelivery l) : ¬ (c.step l).AntiEntropyComplete := by
  obtain ⟨n, call⟩ := l
  cases call with
  | addOrder => exact absurd trivial hgap
  | cancelOrder => exact absurd trivial hgap
  | marketOrder => exact absurd trivial hgap
  | applyRemote op =>
    simp only [GapFreeDelivery, not_forall] at hgap
    obtain ⟨m, a, ha, hbefore, hmiss⟩ := hgap
    obtain ⟨k, hk⟩ := hl
    have hlt := VectorClock.happensBefore_iff.mp hbefore
    have hac := h.created_of_mem ha
    have hopc := h.created_of_mem hk
    -- A repeated delivery has no gap, since the history has none.
    have hseen : op.opId ∉ (c.replicas n).seenOps := fun hs =>
      hmiss ((h.seen_iff_known hac).mpr (hg n a op hac ((h.seen_iff_known hopc).mp hs) hlt))
    have hne : m ≠ n := by
      rintro rfl
      exact hmiss (((h.wellFormed m).seen_iff _).mpr ⟨a, ha, rfl⟩)
    have hstep : c.step (n, .applyRemote op) = ⟨Function.update c.replicas n
        ((c.replicas n).applyRemoteOperation op).1, c.history ++ [.observed n op]⟩ :=
      step_eq [op] rfl (CRDTOrderBook.opLog_applyRemoteOperation hseen)
    intro hcomplete
    have hanswered := hcomplete.answered n m
    rw [hstep] at hanswered
    simp only [Function.update_self, Function.update_of_ne hne] at hanswered
    have hmiss' : a.opId ∉ ((c.replicas n).applyRemoteOperation op).1.seenOps := by
      rw [CRDTOrderBook.mem_seenOps_applyRemoteOperation, not_or]
      refine ⟨fun hid => ?_, hmiss⟩
      obtain rfl := h.opId_inj a op hac hopc hid
      exact lt_irrefl _ hlt
    have hmem := (List.mem_filter.mp (hanswered a ha hmiss')).2
    have hhidden :
        a.clock.happensBefore ((c.replicas n).applyRemoteOperation op).1.clock = true := by
      rw [VectorClock.happensBefore_iff, CRDTOrderBook.clock_applyRemoteOperation hseen,
        VectorClock.get_merge]
      exact hlt.trans_le le_sup_right
    simp [hhidden] at hmem

/-! ### Runs -/

/-- **Anti-entropy completeness.** Along any run of a cluster, anti-entropy is complete in every
state if and only if every delivery is gap-free. -/
theorem antiEntropyComplete_along_iff {calls : List (Str × Call P)}
    (h : (clusterSystem P).Enables Cluster.init calls) :
    (clusterSystem P).Along AntiEntropyComplete Cluster.init calls ↔
      (clusterSystem P).Guarded GapFreeDelivery Cluster.init calls :=
  along_iff_guarded (I := fun c : Cluster P => c.Inv ∧ GapFree Operation.stamp c.history)
    (fun _ hc => antiEntropyComplete_of_gapFree hc.1 hc.2)
    (fun _ l hc hl hgap => ⟨hc.1.step l hl, gapFree_step hc.1 hc.2 hgap⟩)
    (fun _ _ hc hl hgap => not_complete_of_gap hc.1 hc.2 hl hgap) ⟨.init, .nil⟩ h

/-- An addition and its delivery. -/
theorem antiEntropyComplete_along_iff_delivered :
    let a : Operation ℤ := ⟨OpType.addOrder, ⟨[97], [50], Side.buy, 100, 5, 5, 1, false⟩, [], [50],
      (VectorClock.new [50]).tick.1, [1]⟩
    (clusterSystem ℤ).Along AntiEntropyComplete Cluster.init
        [([50], .addOrder Side.buy 100 5 [97] [1]), ([49], .applyRemote a)] ↔
      (clusterSystem ℤ).Guarded GapFreeDelivery Cluster.init
        [([50], .addOrder Side.buy 100 5 [97] [1]), ([49], .applyRemote a)] :=
  antiEntropyComplete_along_iff
    ⟨⟨init_freshOrderId _, init_freshOpId _⟩, ⟨[50], List.mem_cons_self⟩, trivial⟩

/-- Of two additions at one node only the second is delivered: the first is never asked for. -/
theorem not_antiEntropyComplete_of_reachable :
    ¬ ∀ c : Cluster ℤ, (clusterSystem ℤ).Reachable c → c.AntiEntropyComplete := by
  intro hall
  let a : Operation ℤ := ⟨OpType.addOrder, ⟨[97], [50], Side.buy, 100, 5, 5, 1, false⟩, [], [50],
    (VectorClock.new [50]).tick.1, [1]⟩
  let b : Operation ℤ := ⟨OpType.addOrder, ⟨[98], [50], Side.buy, 100, 5, 5, 2, false⟩, [], [50],
    (VectorClock.new [50]).tick.1.tick.1, [2]⟩
  have h₁ := Reachable.init (T := clusterSystem ℤ) |>.step
    ([50], .addOrder Side.buy 100 5 [97] [1]) ⟨init_freshOrderId _, init_freshOpId _⟩
  have h₂ := h₁.step ([50], .addOrder Side.buy 100 5 [98] [2])
    ⟨freshOrderId_of_history (inv_of_reachable h₁) (by decide),
      freshOpId_of_history (inv_of_reachable h₁) (by decide)⟩
  have h₃ := h₂.step ([49], .applyRemote b) ⟨[50], List.mem_cons_of_mem _ List.mem_cons_self⟩
  have hmem := (hall _ h₃).answered [49] [50] a List.mem_cons_self (by decide)
  exact absurd hmem (by decide)

end Cluster

end Convergence
