import Convergence.Crdt.Calls
import Convergence.Library.TransitionSystem

/-!
# Clusters of replicas

Replicas with distinct node ids, any of which may be called at any time. The network is left free:
`apply_remote_operation` may be called with any operation from any log, so operations may be lost,
repeated and reordered, and older ones left out.

The history of a cluster is a ghost: the list of the operations created and applied, in the order in
which this happened. The operations, with their clocks, obey the rule for vector time
(`Cluster.Inv.run`), which is what the results on causality and anti-entropy rest on.

## Main definitions

* `Cluster`, `Cluster.step`, `clusterSystem`.
* `Cluster.Inv`: logs, ids and clocks against the history.

## Main results

* `Cluster.Inv.step`, `Cluster.inv_of_reachable`.
-/

namespace Convergence

open TransitionSystem VectorTime

variable {P : Type*} [LinearOrder P]

/-- The replicas by node id, and what has happened so far. -/
structure Cluster (P : Type*) [LinearOrder P] where
  replicas : Str → CRDTOrderBook P
  history : List (Event Str (Operation P))

/-- The event by which an operation enters the log of the replica `n` in a call. -/
def Call.event (n : Str) (op : Operation P) : Call P → Event Str (Operation P)
  | applyRemote _ => .observed n op
  | _ => .created n op

/-- The vector an operation is stamped with. -/
def Operation.stamp (op : Operation P) : Str → ℕ := op.clock.get

namespace Cluster

/-- Every replica fresh. -/
def init : Cluster P := ⟨CRDTOrderBook.new, []⟩

/-- The replica `l.1` after the call `l.2`; the history grows by the new entries of its log. -/
def step (c : Cluster P) (l : Str × Call P) : Cluster P :=
  let r := c.replicas l.1
  let r' := l.2.run r
  { replicas := Function.update c.replicas l.1 r'
    history := c.history ++ (r'.opLog.drop r.opLog.length).map fun op => l.2.event l.1 op }

/-- No operation in any log has the id. -/
def FreshOpId (c : Cluster P) (id : Str) : Prop :=
  ∀ n, ∀ op ∈ (c.replicas n).opLog, op.opId ≠ id

/-- No operation in any log adds an order with the id. -/
def FreshOrderId (c : Cluster P) (id : Str) : Prop :=
  ∀ n, ∀ op ∈ (c.replicas n).opLog, op.IsAdd → op.order.orderId ≠ id

/-- Generated ids are new to the cluster, and a remote operation comes from a log. -/
def Enabled (c : Cluster P) (l : Str × Call P) : Prop :=
  match l.2 with
  | .addOrder _ _ _ oid opId => c.FreshOrderId oid ∧ c.FreshOpId opId
  | .cancelOrder _ opId _ => c.FreshOpId opId
  | .marketOrder _ _ gen =>
    (Function.Injective fun i => (gen i).1) ∧ ∀ i, c.FreshOpId (gen i).1
  | .applyRemote op => ∃ n, op ∈ (c.replicas n).opLog

end Cluster

/-- The runs of a cluster. -/
def clusterSystem (P : Type*) [LinearOrder P] : TransitionSystem (Cluster P) (Str × Call P) where
  init := Cluster.init
  enabled := Cluster.Enabled
  step := Cluster.step

/-- The shape of the operations a cluster creates: an addition of an order with nothing filled, or a
cancellation. -/
def Operation.Generated (op : Operation P) : Prop :=
  op.IsAdd ∧ op.order.remaining = op.order.quantity ∧ op.order.isCancelled = false ∨ op.IsCancel

namespace Call

variable {r : CRDTOrderBook P} {op : Operation P} {call : Call P}

/-- Only two calls issue operations. -/
theorem Issues.cases (h : call.Issues r op) :
    (∃ side price quantity oid opId, call = .addOrder side price quantity oid opId ∧
      op = (r.ticked r.book).addOperation (r.newOrder side price quantity oid) opId) ∨
    ∃ orderId opId u, call = .cancelOrder orderId opId u ∧
      op = (r.ticked r.book).cancelOperation orderId opId u := by
  cases call with
  | addOrder side price quantity oid opId => exact Or.inl ⟨_, _, _, _, _, rfl, h⟩
  | cancelOrder orderId opId u => exact Or.inr ⟨_, _, _, rfl, h⟩
  | marketOrder => exact h.elim
  | applyRemote => exact h.elim

theorem Issues.clock_eq (h : call.Issues r op) : op.clock = r.clock.tick.1 := by
  obtain ⟨_, _, _, _, _, -, rfl⟩ | ⟨_, _, _, -, rfl⟩ := h.cases <;> rfl

theorem Issues.origin_eq (h : call.Issues r op) : op.originNode = r.nodeId := by
  obtain ⟨_, _, _, _, _, -, rfl⟩ | ⟨_, _, _, -, rfl⟩ := h.cases <;> rfl

theorem Issues.generated (h : call.Issues r op) : op.Generated := by
  obtain ⟨_, _, _, _, _, -, rfl⟩ | ⟨_, _, _, -, rfl⟩ := h.cases
  · exact Or.inl ⟨rfl, rfl, rfl⟩
  · exact Or.inr rfl

theorem Issues.event_eq (h : call.Issues r op) (n : Str) (a : Operation P) :
    call.event n a = .created n a := by
  obtain ⟨_, _, _, _, _, rfl, -⟩ | ⟨_, _, _, rfl, -⟩ := h.cases <;> rfl

/-- An issued operation has new ids. -/
theorem Issues.fresh {c : Cluster P} {n : Str} (h : call.Issues (c.replicas n) op)
    (hl : c.Enabled (n, call)) :
    c.FreshOpId op.opId ∧ (op.IsAdd → c.FreshOrderId op.order.orderId) := by
  obtain ⟨_, _, _, _, _, rfl, rfl⟩ | ⟨_, _, _, rfl, rfl⟩ := h.cases
  · exact ⟨hl.2, fun _ => hl.1⟩
  · exact ⟨hl, fun ha => absurd ha (Operation.IsCancel.not_isAdd rfl)⟩

end Call

namespace Cluster

variable {c : Cluster P}

/-! ### Steps -/

/-- A call after which the log of the replica is longer by `new`. -/
theorem step_eq {n : Str} {call : Call P} {r' : CRDTOrderBook P} (new : List (Operation P))
    (hr : call.run (c.replicas n) = r') (hlog : r'.opLog = (c.replicas n).opLog ++ new) :
    c.step (n, call) = ⟨Function.update c.replicas n r',
      c.history ++ new.map fun op => call.event n op⟩ := by
  rw [step, hr, hlog, List.drop_left]

/-- The clocks of the replicas, as vectors. -/
def clocks (c : Cluster P) (n : Str) : Str → ℕ := (c.replicas n).clock.get

/-- What holds of a cluster whatever ids it generates: logs and clocks agree with the history. -/
structure CausalInv (c : Cluster P) : Prop where
  wellFormed : ∀ n, (c.replicas n).WellFormed
  nodeId : ∀ n, (c.replicas n).nodeId = n
  run : Run Operation.stamp c.history c.clocks
  log_iff : ∀ n op, op ∈ (c.replicas n).opLog ↔ Known c.history n op
  generated : ∀ a, Created c.history a → a.Generated
  origin : ∀ n a, Event.created n a ∈ c.history → a.originNode = n

/-- The invariant of a cluster. -/
structure Inv (c : Cluster P) : Prop where
  wellFormed : ∀ n, (c.replicas n).WellFormed
  nodeId : ∀ n, (c.replicas n).nodeId = n
  run : Run Operation.stamp c.history c.clocks
  log_iff : ∀ n op, op ∈ (c.replicas n).opLog ↔ Known c.history n op
  opId_inj : ∀ a b, Created c.history a → Created c.history b → a.opId = b.opId → a = b
  orderId_inj : ∀ a b, Created c.history a → Created c.history b → a.IsAdd → b.IsAdd →
    a.order.orderId = b.order.orderId → a = b
  generated : ∀ a, Created c.history a → a.Generated
  origin : ∀ n a, Event.created n a ∈ c.history → a.originNode = n

namespace CausalInv

theorem init : (Cluster.init : Cluster P).CausalInv where
  wellFormed := .new
  nodeId _ := rfl
  run := by
    have hclocks : (Cluster.init : Cluster P).clocks = fun _ _ => 0 :=
      funext VectorClock.get_new
    rw [hclocks]
    exact .nil
  log_iff n op := by simp [Cluster.init, Known]
  generated a ha := by simp [Cluster.init, Created] at ha
  origin n a ha := by simp [Cluster.init] at ha

theorem created_of_mem (h : c.CausalInv) {n : Str} {op : Operation P}
    (hop : op ∈ (c.replicas n).opLog) : Created c.history op :=
  h.run.created_of_known ((h.log_iff n op).mp hop)

theorem mem_of_created (h : c.CausalInv) {op : Operation P} (hop : Created c.history op) :
    ∃ n, op ∈ (c.replicas n).opLog :=
  hop.imp fun n hn => (h.log_iff n op).mpr (Or.inl hn)

theorem clock_nodeId (h : c.CausalInv) (n : Str) : (c.replicas n).clock.nodeId = n :=
  (c.replicas n).clock_owner.trans (h.nodeId n)

theorem clocks_update (n : Str) (r : CRDTOrderBook P) (hist : List (Event Str (Operation P))) :
    clocks ⟨Function.update c.replicas n r, hist⟩ = Function.update c.clocks n r.clock.get := by
  funext m
  by_cases hm : m = n
  · subst hm
    simp [clocks]
  · simp [clocks, hm]

/-- Replacing one replica by a well-formed one with the same id. -/
theorem update_replica (h : c.CausalInv) {n : Str} {r : CRDTOrderBook P} (hr : r.WellFormed)
    (hid : r.nodeId = n) :
    (∀ m, (Function.update c.replicas n r m).WellFormed) ∧
      ∀ m, (Function.update c.replicas n r m).nodeId = m := by
  constructor
  · exact (Function.forall_update_iff _ fun _ => CRDTOrderBook.WellFormed).mpr
      ⟨hr, fun m _ => h.wellFormed m⟩
  · exact (Function.forall_update_iff _ fun m r => CRDTOrderBook.nodeId r = m).mpr
      ⟨hid, fun m _ => h.nodeId m⟩

/-- A clock that advances without a new operation. -/
theorem ticked (h : c.CausalInv) (n : Str) (b : OrderBook P)
    (hwf : ((c.replicas n).ticked b).WellFormed) :
    CausalInv ⟨Function.update c.replicas n ((c.replicas n).ticked b), c.history⟩ where
  wellFormed := (h.update_replica hwf (h.nodeId n)).1
  nodeId := (h.update_replica hwf (h.nodeId n)).2
  run := by
    rw [clocks_update, CRDTOrderBook.clock_ticked, VectorClock.get_tick, h.clock_nodeId]
    exact h.run.idle n
  log_iff m op := by
    rw [← h.log_iff]
    change op ∈ (Function.update c.replicas n _ m).opLog ↔ op ∈ (c.replicas m).opLog
    by_cases hm : m = n
    · subst hm
      rw [Function.update_self, CRDTOrderBook.opLog_ticked]
    · rw [Function.update_of_ne hm]
  generated := h.generated
  origin := h.origin

/-- One entry is appended to one log. -/
private theorem log_iff_update (h : c.CausalInv) {n : Str} {r : CRDTOrderBook P}
    {op : Operation P} {hist : List (Event Str (Operation P))}
    (hlog : r.opLog = (c.replicas n).opLog ++ [op])
    (hknown : ∀ m a, Known hist m a ↔ Known c.history m a ∨ m = n ∧ a = op) (m : Str)
    (a : Operation P) : a ∈ (Function.update c.replicas n r m).opLog ↔ Known hist m a := by
  rw [hknown, ← h.log_iff]
  by_cases hm : m = n
  · subst hm
    rw [Function.update_self, hlog, List.mem_append, List.mem_singleton]
    simp only [true_and]
  · rw [Function.update_of_ne hm]
    simp only [hm, false_and, or_false]

/-- An issued operation is stamped with the advanced clock of its replica. -/
theorem stamp_eq (h : c.CausalInv) {n : Str} {call : Call P} {op : Operation P}
    (hop : call.Issues (c.replicas n) op) : op.stamp = tick n (c.clocks n) := by
  rw [Operation.stamp, hop.clock_eq, VectorClock.get_tick, h.clock_nodeId]
  rfl

/-- No stamp so far reaches the counter of an operation that is issued. -/
theorem stamp_lt_of_issues (h : c.CausalInv) {n : Str} {call : Call P} {op : Operation P}
    (hop : call.Issues (c.replicas n) op) {a : Operation P} (ha : Created c.history a) :
    a.stamp n < op.stamp n := by
  rw [h.stamp_eq hop, tick_self]
  exact Nat.lt_succ_of_le (h.run.counter_le_own.2 a ha n)

/-- A new operation, stamped with the clock after the tick. -/
theorem issued (h : c.CausalInv) (n : Str) (b : OrderBook P) {op : Operation P} {call : Call P}
    (hop : call.Issues (c.replicas n) op)
    (hwf : (((c.replicas n).ticked b).log op).WellFormed) :
    CausalInv ⟨Function.update c.replicas n (((c.replicas n).ticked b).log op),
      c.history ++ [.created n op]⟩ := by
  refine
    { wellFormed := (h.update_replica hwf (h.nodeId n)).1
      nodeId := (h.update_replica hwf (h.nodeId n)).2
      run := ?_
      log_iff := log_iff_update h rfl fun m a => known_append_created
      generated := fun a ha => ?_
      origin := fun m a ha => ?_ }
  · have hclocks : ((c.replicas n).ticked b).clock.get = op.stamp := by
      rw [Operation.stamp, hop.clock_eq, CRDTOrderBook.clock_ticked]
    rw [clocks_update, CRDTOrderBook.clock_log, hclocks]
    exact h.run.create n op (fun hc => (h.stamp_lt_of_issues hop hc).false) (h.stamp_eq hop)
  · rcases created_append_created.mp ha with ha | rfl
    · exact h.generated a ha
    · exact hop.generated
  · rcases List.mem_append.mp ha with ha | ha
    · exact h.origin m a ha
    · obtain ⟨rfl, rfl⟩ : m = n ∧ a = op := by simpa using ha
      exact hop.origin_eq.trans (h.nodeId m)

/-- An operation from a log is applied. -/
theorem applied (h : c.CausalInv) (n : Str) {op : Operation P} (hop : Created c.history op)
    (hseen : op.opId ∉ (c.replicas n).seenOps) :
    CausalInv ⟨Function.update c.replicas n ((c.replicas n).applyRemoteOperation op).1,
      c.history ++ [.observed n op]⟩ where
  wellFormed := (h.update_replica ((h.wellFormed n).applyRemoteOperation op) (by
    rw [CRDTOrderBook.nodeId_applyRemoteOperation, h.nodeId n])).1
  nodeId := (h.update_replica ((h.wellFormed n).applyRemoteOperation op) (by
    rw [CRDTOrderBook.nodeId_applyRemoteOperation, h.nodeId n])).2
  run := by
    rw [clocks_update, CRDTOrderBook.clock_applyRemoteOperation hseen, VectorClock.get_merge]
    exact h.run.observe n op hop
  log_iff := log_iff_update h (CRDTOrderBook.opLog_applyRemoteOperation hseen) fun m a =>
    known_append_observed
  generated a ha := h.generated a (created_append_observed.mp ha)
  origin m a ha := h.origin m a (by simpa using ha)

/-- What a step of a cluster is, by the outcome of the call. -/
theorem step_cases (h : c.CausalInv) (n : Str) (call : Call P) :
    c.step (n, call) = c ∨
      (∃ b, ((c.replicas n).ticked b).WellFormed ∧ c.step (n, call) =
        ⟨Function.update c.replicas n ((c.replicas n).ticked b), c.history⟩) ∨
      (∃ b op, call.Issues (c.replicas n) op ∧ (((c.replicas n).ticked b).log op).WellFormed ∧
        c.step (n, call) = ⟨Function.update c.replicas n (((c.replicas n).ticked b).log op),
          c.history ++ [.created n op]⟩) ∨
      ∃ op, call = .applyRemote op ∧ op.opId ∉ (c.replicas n).seenOps ∧ c.step (n, call) =
        ⟨Function.update c.replicas n ((c.replicas n).applyRemoteOperation op).1,
          c.history ++ [.observed n op]⟩ := by
  have hwf := (h.wellFormed n).run call
  have hnext := (h.wellFormed n).next call
  generalize hr : call.run (c.replicas n) = r' at hwf hnext
  cases hnext with
  | same =>
    left
    rw [step_eq [] hr (List.append_nil _).symm, Function.update_eq_self]
    exact congrArg (Cluster.mk c.replicas) (List.append_nil c.history)
  | ticked _ b =>
    refine Or.inr (Or.inl ⟨b, hwf, ?_⟩)
    rw [step_eq [] hr (List.append_nil _).symm, List.map_nil, List.append_nil]
  | issued _ b op hop =>
    refine Or.inr (Or.inr (Or.inl ⟨b, op, hop, hwf, ?_⟩))
    rw [step_eq [op] hr rfl, List.map_singleton, hop.event_eq]
  | applied op hseen =>
    refine Or.inr (Or.inr (Or.inr ⟨op, rfl, hseen, ?_⟩))
    rw [step_eq [op] hr (CRDTOrderBook.opLog_applyRemoteOperation hseen)]
    rfl

/-- What a step adds to the history: nothing, an operation that the call issues, or the remote
operation it applies. -/
theorem history_step (h : c.CausalInv) (n : Str) (call : Call P) :
    (c.step (n, call)).history = c.history ∨
      (∃ op, call.Issues (c.replicas n) op ∧
        (c.step (n, call)).history = c.history ++ [.created n op]) ∨
      ∃ op, call = .applyRemote op ∧
        (c.step (n, call)).history = c.history ++ [.observed n op] := by
  obtain heq | ⟨b, -, heq⟩ | ⟨b, op, hop, -, heq⟩ | ⟨op, hcall, -, heq⟩ := h.step_cases n call
  · exact Or.inl (by rw [heq])
  · exact Or.inl (by rw [heq])
  · exact Or.inr (Or.inl ⟨op, hop, by rw [heq]⟩)
  · exact Or.inr (Or.inr ⟨op, hcall, by rw [heq]⟩)

/-- Any call, as long as a remote operation comes from a log. -/
theorem step (h : c.CausalInv) {n : Str} {call : Call P}
    (hl : ∀ op, call = .applyRemote op → Created c.history op) : (c.step (n, call)).CausalInv := by
  obtain heq | ⟨b, hwf, heq⟩ | ⟨b, op, hop, hwf, heq⟩ | ⟨op, rfl, hseen, heq⟩ := h.step_cases n call
  · rwa [heq]
  · rw [heq]
    exact h.ticked n b hwf
  · rw [heq]
    exact h.issued n b hop hwf
  · rw [heq]
    exact h.applied n (hl op rfl) hseen

/-- A key that tells the operations of a kind apart still does so after a call that issues new
keys. -/
theorem key_inj_step (h : c.CausalInv) {n : Str} {call : Call P} (kind : Operation P → Prop)
    (key : Operation P → Str)
    (hinj : ∀ a b, Created c.history a → Created c.history b → kind a → kind b → key a = key b →
      a = b)
    (hnew : ∀ op, call.Issues (c.replicas n) op → kind op → ∀ a, Created c.history a → kind a →
      key a ≠ key op) (a b : Operation P) (ha : Created (c.step (n, call)).history a)
    (hb : Created (c.step (n, call)).history b) (hka : kind a) (hkb : kind b)
    (heq : key a = key b) : a = b := by
  obtain hh | ⟨op, hop, hh⟩ | ⟨op, -, hh⟩ := h.history_step n call
  · exact hinj a b (hh ▸ ha) (hh ▸ hb) hka hkb heq
  · rcases created_append_created.mp (hh ▸ ha) with ha | rfl <;>
      rcases created_append_created.mp (hh ▸ hb) with hb | rfl
    · exact hinj a b ha hb hka hkb heq
    · exact absurd heq (hnew b hop hkb a ha hka)
    · exact absurd heq.symm (hnew a hop hka b hb hkb)
    · rfl
  · exact hinj a b (created_append_observed.mp (hh ▸ ha)) (created_append_observed.mp (hh ▸ hb))
      hka hkb heq

end CausalInv

namespace Inv

theorem causal (h : c.Inv) : c.CausalInv where
  wellFormed := h.wellFormed
  nodeId := h.nodeId
  run := h.run
  log_iff := h.log_iff
  generated := h.generated
  origin := h.origin

theorem init : (Cluster.init : Cluster P).Inv where
  wellFormed := CausalInv.init.wellFormed
  nodeId := CausalInv.init.nodeId
  run := CausalInv.init.run
  log_iff := CausalInv.init.log_iff
  opId_inj a _ ha := by simp [Cluster.init, Created] at ha
  orderId_inj a _ ha := by simp [Cluster.init, Created] at ha
  generated := CausalInv.init.generated
  origin := CausalInv.init.origin

theorem created_of_mem (h : c.Inv) {n : Str} {op : Operation P} (hop : op ∈ (c.replicas n).opLog) :
    Created c.history op :=
  h.causal.created_of_mem hop

theorem step (h : c.Inv) (l : Str × Call P) (hl : c.Enabled l) : (c.step l).Inv := by
  obtain ⟨n, call⟩ := l
  have hcausal : (c.step (n, call)).CausalInv := h.causal.step fun op hcall => by
    subst hcall
    obtain ⟨m, hm⟩ := hl
    exact h.created_of_mem hm
  exact
    { wellFormed := hcausal.wellFormed
      nodeId := hcausal.nodeId
      run := hcausal.run
      log_iff := hcausal.log_iff
      opId_inj := fun a b ha hb heq => by
        refine h.causal.key_inj_step (fun _ => True) Operation.opId
          (fun x y hx hy _ _ => h.opId_inj x y hx hy) (fun op hop _ x hx _ => ?_) a b ha hb trivial
          trivial heq
        obtain ⟨m, hm⟩ := h.causal.mem_of_created hx
        exact (hop.fresh hl).1 m x hm
      orderId_inj := fun a b ha hb hka hkb heq => by
        refine h.causal.key_inj_step Operation.IsAdd (fun op => op.order.orderId)
          h.orderId_inj (fun op hop hadd x hx hxa => ?_) a b ha hb hka hkb heq
        obtain ⟨m, hm⟩ := h.causal.mem_of_created hx
        exact (hop.fresh hl).2 hadd m x hm hxa
      generated := hcausal.generated
      origin := hcausal.origin }

end Inv

theorem inv_of_reachable (h : (clusterSystem P).Reachable c) : c.Inv :=
  h.invariant .init fun _ l _ hc hl => hc.step l hl

theorem init_freshOpId (id : Str) : (Cluster.init : Cluster P).FreshOpId id :=
  fun _ _ hop => absurd hop List.not_mem_nil

theorem init_freshOrderId (id : Str) : (Cluster.init : Cluster P).FreshOrderId id :=
  fun _ _ hop => absurd hop List.not_mem_nil

/-- Whether an id is new to a cluster can be read off its history. -/
theorem freshOpId_of_history (h : c.Inv) {id : Str}
    (hid : ∀ op ∈ c.history.map Event.op, op.opId ≠ id) : c.FreshOpId id := fun _ op hop =>
  hid op (mem_op_of_created (h.created_of_mem hop))

theorem freshOrderId_of_history (h : c.Inv) {id : Str}
    (hid : ∀ op ∈ c.history.map Event.op, op.order.orderId ≠ id) : c.FreshOrderId id :=
  fun _ op hop _ => hid op (mem_op_of_created (h.created_of_mem hop))

end Cluster

end Convergence
