import Convergence.Crdt.Lamport

/-!
# Selecting the operations a peer lacks

`get_operations_since` leaves out an operation when its clock happened before the clock of the peer
or when the two are equal as maps. The first comparison reads an absent entry as `0`, the second
does not. An operation has no entry with counter `0`, since its creator has just advanced its own,
while a replica starts with the entry `0` of its own. So the two comparisons together are the order
of vectors, except on the clock of a replica that has not advanced its counter yet: an operation
whose clock is the same vector is selected again.

## Main definitions

* `VectorClock.Positive`, `VectorClock.ZeroAtOwner`: where a clock may have an entry `0`.
* `CRDTOrderBook.SelectsLacking`: the selection, as the order of vectors says.

## Main results

* `VectorClock.sameClock_iff`.
* `Cluster.zeroInv_of_reachable`.
* `Cluster.selectsLacking_iff`.
-/

namespace Convergence

open TransitionSystem VectorTime

/-! ### Entries with counter `0` -/

theorem ClockMap.lookup_foldl_raise_eq_zero {l : List ((_ : Str) × ℕ)} (hl : ∀ e ∈ l, e.2 ≠ 0)
    {m : ClockMap} {k : Str} (h : (l.foldl raise m).lookup k = some 0) : m.lookup k = some 0 := by
  induction l generalizing m with
  | nil => exact h
  | cons e l ih =>
    have hraise := ih (fun e' he' => hl e' (List.mem_cons_of_mem _ he')) h
    rw [raise, lookup_set] at hraise
    split_ifs at hraise with hk
    · have hmax := Option.some.inj hraise
      have hpos := hl e List.mem_cons_self
      omega
    · exact hraise

namespace VectorClock

/-- No entry has counter `0`. -/
def Positive (c : VectorClock) : Prop := ∀ k, c.clock.lookup k ≠ some 0

/-- No entry but the owner's has counter `0`. -/
def ZeroAtOwner (c : VectorClock) : Prop := ∀ k, c.clock.lookup k = some 0 → k = c.nodeId

variable {c other : VectorClock}

theorem zeroAtOwner_new (n : Str) : (new n).ZeroAtOwner := fun k hk => by
  rw [new, ClockMap.lookup_set] at hk
  split_ifs at hk with hown
  · exact hown
  · cases hk

theorem ZeroAtOwner.tick (h : c.ZeroAtOwner) : c.tick.1.Positive := fun k hk => by
  simp only [VectorClock.tick, ClockMap.lookup_set] at hk
  split_ifs at hk with hown
  · have hval := Option.some.inj hk
    omega
  · exact hown (h k hk)

theorem Positive.zeroAtOwner (h : c.Positive) : c.ZeroAtOwner := fun k hk => absurd hk (h k)

theorem ZeroAtOwner.merge (h : c.ZeroAtOwner) (hother : other.Positive) :
    (c.merge other).ZeroAtOwner := fun k hk => by
  refine h k (ClockMap.lookup_foldl_raise_eq_zero (fun e he hzero => hother e.1 ?_) hk)
  rw [mem_entries_iff.mp he, hzero]

/-- Equality of hash maps is equality of all lookups. -/
theorem sameClock_iff :
    c.sameClock other = true ↔ ∀ k, c.clock.lookup k = other.clock.lookup k := by
  rw [sameClock, decide_eq_true_iff]
  constructor
  · intro hperm k
    exact List.perm_dlookup k c.clock.nodupKeys hperm
  · intro h
    refine List.lookup_ext c.clock.nodupKeys other.clock.nodupKeys fun k v => ?_
    change v ∈ c.clock.lookup k ↔ v ∈ other.clock.lookup k
    rw [h]

/-- A clock without zeros that is the same vector is the same map, unless the other has its own
zero. -/
theorem sameClock_iff_of_get_eq (hc : c.Positive) (hother : other.ZeroAtOwner)
    (h : c.get = other.get) : c.sameClock other = true ↔ other.get other.nodeId ≠ 0 := by
  have hcounter (k : Str) : (c.clock.lookup k).getD 0 = (other.clock.lookup k).getD 0 :=
    congrFun h k
  rw [sameClock_iff]
  constructor
  · intro hsame hzero
    obtain ⟨v, hv⟩ := Option.isSome_iff_exists.mp (AList.lookup_isSome.mpr other.owned)
    rw [get, ClockMap.counter, hv, Option.getD_some] at hzero
    exact hc other.nodeId ((hsame _).trans (hv.trans (congrArg some hzero)))
  · intro hpos k
    have hk := hcounter k
    cases hl : c.clock.lookup k with
    | some v =>
      have hv : v ≠ 0 := fun hzero => hc k (hl.trans (congrArg some hzero))
      cases hr : other.clock.lookup k with
      | some w => simpa [hl, hr] using hk
      | none => exact absurd (by simpa [hl, hr] using hk) hv
    | none =>
      cases hr : other.clock.lookup k with
      | some w =>
        have hw : w = 0 := by simpa [hl, hr] using hk.symm
        obtain rfl := hother k (hr.trans (congrArg some hw))
        refine absurd ?_ hpos
        rw [get, ClockMap.counter, hr, Option.getD_some, hw]
      | none => rfl

end VectorClock

variable {P : Type*} [LinearOrder P]

namespace CRDTOrderBook

variable {r : CRDTOrderBook P} {op : Operation P} {peerClock : VectorClock}

/-- The selection for a peer with the clock `peerClock` is, in log order and without repetitions,
the operations that the peer's vector does not cover. -/
structure SelectsLacking (r : CRDTOrderBook P) (peerClock : VectorClock) : Prop where
  sublist : (r.getOperationsSince peerClock).Sublist r.opLog
  nodup : (r.getOperationsSince peerClock).Nodup
  mem_iff : ∀ op, op ∈ r.getOperationsSince peerClock ↔
    op ∈ r.opLog ∧ ¬ op.clock.get ≤ peerClock.get
  synchronised : (∀ op ∈ r.opLog, op.clock.get ≤ peerClock.get) →
    r.getOperationsSince peerClock = []

theorem mem_getOperationsSince_iff : op ∈ r.getOperationsSince peerClock ↔
    op ∈ r.opLog ∧ ¬ op.clock.get < peerClock.get ∧ op.clock.sameClock peerClock = false := by
  rw [getOperationsSince, List.mem_filter, Bool.and_eq_true, Bool.not_eq_true', Bool.not_eq_true',
    ← Bool.not_eq_true, VectorClock.happensBefore_iff]

/-- The two comparisons of the code amount to the order of vectors when clocks that are the same
vector are the same map. -/
theorem selectsLacking_iff_sameClock (hnd : r.opLog.Nodup) : r.SelectsLacking peerClock ↔
    ∀ op ∈ r.opLog, op.clock.get = peerClock.get → op.clock.sameClock peerClock = true := by
  constructor
  · intro h op hop heq
    by_contra hsame
    refine ((h.mem_iff op).mp (mem_getOperationsSince_iff.mpr ⟨hop, heq.not_lt, ?_⟩)).2 heq.le
    exact Bool.eq_false_iff.mpr hsame
  · intro h
    have hmem (op : Operation P) : op ∈ r.getOperationsSince peerClock ↔
        op ∈ r.opLog ∧ ¬ op.clock.get ≤ peerClock.get := by
      refine ⟨fun hop => ?_, fun hop => mem_getOperationsSince hop.1 hop.2⟩
      obtain ⟨hlog, hlt, hsame⟩ := mem_getOperationsSince_iff.mp hop
      refine ⟨hlog, fun hle => ?_⟩
      rcases hle.lt_or_eq with hlt' | heq
      · exact hlt hlt'
      · rw [h op hlog heq] at hsame
        cases hsame
    refine ⟨List.filter_sublist, hnd.filter _, hmem, fun hall => ?_⟩
    exact List.eq_nil_iff_forall_not_mem.mpr fun op hop =>
      ((hmem op).mp hop).2 (hall op ((hmem op).mp hop).1)

end CRDTOrderBook

namespace Cluster

variable {c c' : Cluster P}

/-- Zeros in the clocks of a cluster: only a replica has one, and only its own. Logs do not repeat
an operation. -/
structure ZeroInv (c : Cluster P) : Prop extends c.CausalInv where
  replica : ∀ n, (c.replicas n).clock.ZeroAtOwner
  operation : ∀ a, Created c.history a → a.clock.Positive
  nodup : ∀ n, (c.replicas n).opLog.Nodup

theorem ZeroInv.init : (Cluster.init : Cluster P).ZeroInv where
  toCausalInv := .init
  replica := VectorClock.zeroAtOwner_new
  operation a ha := by simp [Cluster.init, Created] at ha
  nodup _ := List.nodup_nil

/-- Replacing one replica keeps what holds of clocks and logs. -/
private theorem forall_update {n : Str} {r : CRDTOrderBook P} (h : c.ZeroInv)
    (hr : r.clock.ZeroAtOwner ∧ r.opLog.Nodup) (m : Str) :
    (Function.update c.replicas n r m).clock.ZeroAtOwner ∧
      (Function.update c.replicas n r m).opLog.Nodup :=
  (Function.forall_update_iff c.replicas
    fun _ (r : CRDTOrderBook P) => r.clock.ZeroAtOwner ∧ r.opLog.Nodup).mpr
    ⟨hr, fun m _ => ⟨h.replica m, h.nodup m⟩⟩ m

theorem ZeroInv.step (h : c.ZeroInv) {l : Str × Call P} (hl : c.FromLog l) :
    (c.step l).ZeroInv := by
  obtain ⟨n, call⟩ := l
  have hcausal := h.toCausalInv.step_of_fromLog hl
  obtain heq | ⟨b, -, heq⟩ | ⟨b, op, hop, -, heq⟩ | ⟨op, rfl, hseen, heq⟩ :=
    h.toCausalInv.step_cases n call
  · rwa [heq]
  · rw [heq] at hcausal ⊢
    have hr := forall_update h (n := n) (r := (c.replicas n).ticked b)
      ⟨(h.replica n).tick.zeroAtOwner, h.nodup n⟩
    exact ⟨hcausal, fun m => (hr m).1, h.operation, fun m => (hr m).2⟩
  · rw [heq] at hcausal ⊢
    have hnew : op ∉ (c.replicas n).opLog := fun hmem =>
      (h.stamp_lt_of_issues hop (h.created_of_mem hmem)).false
    have hr := forall_update h (n := n) (r := ((c.replicas n).ticked b).log op)
      ⟨(h.replica n).tick.zeroAtOwner, (h.nodup n).append (List.nodup_singleton op)
        (List.disjoint_singleton.mpr hnew)⟩
    refine ⟨hcausal, fun m => (hr m).1, fun a ha => ?_, fun m => (hr m).2⟩
    rcases created_append_created.mp ha with ha | rfl
    · exact h.operation a ha
    · rw [hop.clock_eq]
      exact (h.replica n).tick
  · rw [heq] at hcausal ⊢
    obtain ⟨m, hm⟩ := hl
    have hpos : op.clock.Positive := h.operation op (h.created_of_mem hm)
    have hnew : op ∉ (c.replicas n).opLog := fun hmem =>
      hseen (((h.wellFormed n).seen_iff _).mpr ⟨op, hmem, rfl⟩)
    have hr := forall_update h (n := n) (r := ((c.replicas n).applyRemoteOperation op).1) <| by
      rw [CRDTOrderBook.clock_applyRemoteOperation hseen,
        CRDTOrderBook.opLog_applyRemoteOperation hseen]
      exact ⟨(h.replica n).merge hpos, (h.nodup n).append (List.nodup_singleton op)
        (List.disjoint_singleton.mpr hnew)⟩
    refine ⟨hcausal, fun m => (hr m).1, fun a ha => ?_, fun m => (hr m).2⟩
    exact h.operation a (created_append_observed.mp ha)

theorem zeroInv_of_reachable (h : (replicaSystem P).Reachable c) : c.ZeroInv :=
  h.invariant .init fun _ _ _ hc hl => hc.step hl

/-- **Delta selection.** A replica selects for a peer exactly the operations that the peer's vector
does not cover, if and only if no logged operation has the peer's vector while the peer's own
counter is still zero. -/
theorem selectsLacking_iff (h : (replicaSystem P).Reachable c)
    (h' : (replicaSystem P).Reachable c') (n m : Str) :
    (c.replicas n).SelectsLacking (c'.replicas m).clock ↔
      ∀ op ∈ (c.replicas n).opLog, op.clock.get = (c'.replicas m).clock.get →
        (c'.replicas m).clock.get m ≠ 0 := by
  have hinv := zeroInv_of_reachable h
  have hinv' := zeroInv_of_reachable h'
  rw [CRDTOrderBook.selectsLacking_iff_sameClock (hinv.nodup n)]
  refine forall₂_congr fun op hop => forall_congr' fun heq => ?_
  rw [VectorClock.sameClock_iff_of_get_eq (hinv.operation op (hinv.created_of_mem hop))
    (hinv'.replica m) heq, hinv'.clock_nodeId]

/-- The addition of a bid, the first call of its node. -/
def firstAddition : Operation ℤ :=
  ((CRDTOrderBook.new [65]).ticked OrderBook.new).addOperation
    ((CRDTOrderBook.new [65]).newOrder Side.buy 100 4 [97]) [98]

/-- A replica has applied the addition and called nothing itself. -/
def appliedOnly : Cluster ℤ :=
  (init.step ([65], .addOrder Side.buy 100 4 [97] [98])).step ([67], .applyRemote firstAddition)

theorem reachable_appliedOnly : (replicaSystem ℤ).Reachable appliedOnly := by
  have hadd := Reachable.init (T := replicaSystem ℤ) |>.step
    ([65], .addOrder Side.buy 100 4 [97] [98]) trivial
  exact hadd.step ([67], .applyRemote firstAddition) ⟨[65], List.mem_singleton_self _⟩

theorem selectsLacking_iff_appliedOnly :
    (appliedOnly.replicas [67]).SelectsLacking (appliedOnly.replicas [65]).clock ↔
      ∀ op ∈ (appliedOnly.replicas [67]).opLog,
        op.clock.get = (appliedOnly.replicas [65]).clock.get →
          (appliedOnly.replicas [65]).clock.get [65] ≠ 0 :=
  selectsLacking_iff reachable_appliedOnly reachable_appliedOnly [67] [65]

/-- The clock of the second replica covers all that the first has logged, and the first selects its
addition for the second once more. -/
theorem not_selectsLacking_appliedOnly : (replicaSystem ℤ).Reachable appliedOnly ∧
    (∀ op ∈ (appliedOnly.replicas [65]).opLog,
      op.clock.get ≤ (appliedOnly.replicas [67]).clock.get) ∧
    (appliedOnly.replicas [65]).getOperationsSince (appliedOnly.replicas [67]).clock =
      [firstAddition] := by
  have hlog : (appliedOnly.replicas [65]).opLog = [firstAddition] := rfl
  refine ⟨reachable_appliedOnly, fun op hop => ?_, ?_⟩
  · rw [hlog, List.mem_singleton] at hop
    rw [hop, VectorClock.get_le_iff]
    decide
  · rw [CRDTOrderBook.getOperationsSince, hlog]
    rfl

end Cluster

end Convergence
