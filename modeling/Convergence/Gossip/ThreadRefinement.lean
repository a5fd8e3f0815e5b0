import Convergence.Crdt.ClientRuns
import Convergence.Gossip.Threads
import Convergence.Library.Refinement

/-!
# Interleaved threads make calls of a cluster

However the threads of the nodes are interleaved, and whatever becomes of the datagrams, the
replicas go through a run of a cluster: one call after the other, each of them a call of a client or
the application of an operation that some replica has logged. An operation travels in datagrams and
waits in receiving threads; wherever it is, it was created by the call of a client.

## Main definitions

* `ReceiveThread.held`: the operations that a receiving thread has in hand.
* `ThreadedNetwork.Represents`: a network of threads against a cluster.

## Main results

* `ThreadedNetwork.represents_afterStep`, `ThreadedNetwork.refines`.
* `ThreadedNetwork.clusterRun_of_enables`.
-/

namespace Convergence

open TransitionSystem VectorTime

/-! ### Operations in hand -/

/-- The operations that a receiving thread still applies or sends. -/
def ReceiveThread.held : ReceiveThread → List (Operation ℚ)
  | waiting => []
  | handling _ _ _ rest => rest
  | answering _ ops _ _ => ops

theorem Message.mem_of_mem_toApply {msg : Message} {op : Operation ℚ} (h : op ∈ msg.toApply) :
    op ∈ msg.operations := by
  rw [toApply] at h
  split_ifs at h
  · exact h
  · exact absurd h List.not_mem_nil

namespace GossipEngine

variable {e : GossipEngine} {msg : Message} {op : Operation ℚ}

/-- The operations of a response come from the log. -/
theorem mem_opLog_of_response {r : MessageType × List (Operation ℚ)} (hr : e.response msg = some r)
    (hop : op ∈ r.2) : op ∈ e.crdtBook.opLog := by
  have hlog {a : Operation ℚ} (ha : a ∈ e.crdtBook.getOperationsSince msg.senderClock) :
      a ∈ e.crdtBook.opLog := (List.mem_filter.mp ha).1
  rw [response] at hr
  split_ifs at hr
  · obtain rfl := Option.some.inj hr
    exact hlog (List.mem_of_mem_take hop)
  · obtain rfl := Option.some.inj hr
    exact hlog hop
  · obtain rfl := Option.some.inj hr
    exact hlog hop

theorem mem_opLog_of_roundMessage {mode : SyncMode}
    (hop : op ∈ (e.roundMessage mode).operations) : op ∈ e.crdtBook.opLog := by
  rw [roundMessage] at hop
  split_ifs at hop
  · exact absurd hop List.not_mem_nil
  · exact List.mem_of_mem_drop hop
  · exact List.mem_of_mem_drop hop

/-- An anti-entropy request carries no operations. -/
theorem operations_of_syncRequest {revived : Option PeerInfo} {d : Datagram}
    (hd : d ∈ e.syncRequest revived) : d.msg = e.message .antiEntropyReq [] := by
  obtain ⟨p, -, rfl⟩ := Option.mem_map.mp (Option.mem_toList.mp hd)
  rfl

end GossipEngine

namespace EngineThreads

variable {φ : GoldenRatio} {s : EngineThreads} {action : ThreadAction} {op : Operation ℚ}

/-- What a receiving thread has in hand after a step. -/
theorem mem_held_step (hop : op ∈ (s.step φ action).1.receiver.held) :
    op ∈ s.receiver.held ∨ op ∈ s.engine.crdtBook.opLog ∨
      ∃ r, action = .receive r ∧ op ∈ r.msg.operations := by
  cases action with
  | receive r => exact Or.inr (Or.inr ⟨r, rfl, Message.mem_of_mem_toApply hop⟩)
  | applyNext =>
    left
    simp only [step] at hop
    split at hop
    next msg host port a rest heq =>
      rw [heq]
      exact List.mem_cons_of_mem _ hop
    next => exact hop
  | lookUp =>
    simp only [step] at hop
    split at hop
    next msg host port heq =>
      cases hr : s.engine.response msg with
      | none => simp [hr, ReceiveThread.held] at hop
      | some r =>
        simp only [hr, Option.map_some, Option.getD_some, ReceiveThread.held] at hop
        exact Or.inr (Or.inl (GossipEngine.mem_opLog_of_response hr hop))
    next => exact Or.inl hop
  | sendAnswer =>
    left
    simp only [step] at hop
    split at hop
    · exact absurd hop List.not_mem_nil
    · exact hop
  | readClock =>
    left
    simp only [step] at hop
    split at hop <;> exact hop
  | sendRound =>
    left
    simp only [step] at hop
    split at hop <;> exact hop
  | sendHeartbeat =>
    left
    simp only [step] at hop
    split at hop <;> exact hop
  | choosePeer => exact Or.inl hop
  | chooseHeartbeat => exact Or.inl hop
  | checkLiveness => exact Or.inl hop
  | client => exact Or.inl hop

/-- What a step sends. -/
theorem mem_sent_step {d : Datagram} (hd : d ∈ (s.step φ action).2)
    (hop : op ∈ d.msg.operations) : op ∈ s.receiver.held ∨ op ∈ s.engine.crdtBook.opLog := by
  have hnone {l : List Datagram} (hl : l = []) (hd : d ∈ l) :
      op ∈ s.receiver.held ∨ op ∈ s.engine.crdtBook.opLog :=
    absurd (hl ▸ hd) List.not_mem_nil
  cases action with
  | receive r =>
    rw [GossipEngine.operations_of_syncRequest hd] at hop
    exact absurd hop List.not_mem_nil
  | sendRound =>
    simp only [step] at hd
    split at hd
    · rw [List.mem_singleton.mp hd] at hop
      exact Or.inr (GossipEngine.mem_opLog_of_roundMessage hop)
    · exact hnone rfl hd
  | sendHeartbeat =>
    simp only [step] at hd
    split at hd
    · rw [List.mem_singleton.mp hd] at hop
      exact absurd hop List.not_mem_nil
    · exact hnone rfl hd
  | sendAnswer =>
    simp only [step] at hd
    split at hd
    next type ops host port heq =>
      rw [List.mem_singleton.mp hd] at hop
      rw [heq]
      exact Or.inl hop
    next => exact hnone rfl hd
  | readClock =>
    simp only [step] at hd
    split at hd <;> exact hnone rfl hd
  | applyNext =>
    simp only [step] at hd
    split at hd <;> exact hnone rfl hd
  | lookUp =>
    simp only [step] at hd
    split at hd <;> exact hnone rfl hd
  | choosePeer => exact hnone rfl hd
  | chooseHeartbeat => exact hnone rfl hd
  | checkLiveness => exact hnone rfl hd
  | client => exact hnone rfl hd

/-- A step makes at most one call: of a client, or with the next operation in hand. -/
theorem calls_cases (s : EngineThreads) (action : ThreadAction) : s.calls action = [] ∨
    (∃ call, action = .client call ∧ s.calls action = [call]) ∨
      ∃ msg host port op rest, action = .applyNext ∧
        s.receiver = .handling msg host port (op :: rest) ∧
          s.calls action = [.applyRemote op] := by
  cases action with
  | client call => exact Or.inr (Or.inl ⟨call, rfl, rfl⟩)
  | applyNext =>
    rw [calls]
    split
    next msg host port op rest heq =>
      exact Or.inr (Or.inr ⟨msg, host, port, op, rest, rfl, heq, rfl⟩)
    next => exact Or.inl rfl
  | _ => exact Or.inl rfl

end EngineThreads

/-- A packet carries a datagram from the node to where its address leads. -/
theorem Addressing.mem_packets {N : Type*} {a : Addressing N} {n : N} {ds : List Datagram}
    {p : Packet N} (hp : p ∈ a.packets n ds) : ∃ d ∈ ds, a.route d.host d.port = some p.dst ∧
      p = ⟨some n, p.dst, d.msg, a.host n, a.port n⟩ := by
  obtain ⟨d, hd, heq⟩ := List.mem_filterMap.mp hp
  obtain ⟨dst, hroute, rfl⟩ := Option.map_eq_some_iff.mp heq
  exact ⟨d, hd, hroute, rfl⟩

/-! ### Networks and clusters -/

theorem Cluster.created_step {c : Cluster ℚ} {op : Operation ℚ} (h : Created c.history op)
    (l : Str × Call ℚ) : Created (c.step l).history op :=
  h.imp fun _ => List.mem_append_left _

namespace ThreadedNetwork

variable {N : Type*} {id : N → Str} {s : ThreadedNetwork N} {κ : Cluster ℚ}

/-- The replicas are those of the cluster, and every operation on its way was created there. -/
structure Represents (id : N → Str) (s : ThreadedNetwork N) (κ : Cluster ℚ) : Prop where
  inv : κ.ClientInv
  replica : ∀ n, κ.replicas (id n) = s.replica n
  others : ∀ x, (∀ n, id n ≠ x) → κ.replicas x = .new x
  packets : ∀ p ∈ s.sent, ∀ op ∈ p.msg.operations, Created κ.history op
  receivers : ∀ n, ∀ op ∈ (s.nodes n).receiver.held, Created κ.history op

theorem Starts.represents (h : s.Starts id) : s.Represents id Cluster.init where
  inv := .init
  replica n := (h.crdtBook n).symm
  others _ _ := rfl
  packets p hp := by
    rw [h.sent] at hp
    exact absurd hp List.not_mem_nil
  receivers n op hop := by
    rw [h.receiver n] at hop
    exact absurd hop List.not_mem_nil

namespace Represents

theorem created_of_mem (h : s.Represents id κ) {n : N} {op : Operation ℚ}
    (hop : op ∈ (s.replica n).opLog) : Created κ.history op :=
  h.inv.created_of_mem (h.replica n ▸ hop)

/-- What no replica of the network has, the cluster does not have. -/
theorem forall_opLog (h : s.Represents id κ) {p : Operation ℚ → Prop}
    (hp : ∀ n, ∀ op ∈ (s.replica n).opLog, p op) (x : Str) : ∀ op ∈ (κ.replicas x).opLog, p op := by
  intro op hop
  by_cases hx : ∃ n, id n = x
  · obtain ⟨n, rfl⟩ := hx
    exact hp n op (h.replica n ▸ hop)
  · rw [h.others x (not_exists.mp hx)] at hop
    exact absurd hop List.not_mem_nil

/-- What a client may call, it may call in the cluster. -/
theorem enabled_client (h : s.Represents id κ) {n : N} {call : Call ℚ} (hcall : s.ClientMay call) :
    (clientSystem ℚ).enabled κ (id n, call) := by
  cases call with
  | addOrder => exact ⟨⟨h.forall_opLog hcall.1.1, h.forall_opLog hcall.1.2⟩, hcall.2⟩
  | cancelOrder => exact ⟨h.forall_opLog hcall, trivial⟩
  | marketOrder => exact ⟨⟨hcall.1, fun i => h.forall_opLog (hcall.2 i)⟩, trivial⟩
  | applyRemote => exact hcall.elim

theorem enabled_applyRemote (h : s.Represents id κ) (n : N) {op : Operation ℚ}
    (hop : Created κ.history op) : (clientSystem ℚ).enabled κ (id n, .applyRemote op) :=
  ⟨h.inv.causal.mem_of_created hop, trivial⟩

end Represents

variable [DecidableEq N] {φ : GoldenRatio} {a : Addressing N} {n : N} {action : ThreadAction}

@[simp] theorem nodes_afterStep_self (r : EngineThreads × List Datagram) :
    (s.afterStep a n r).nodes n = r.1 :=
  Function.update_self ..

theorem nodes_afterStep_of_ne {m : N} (h : m ≠ n) (r : EngineThreads × List Datagram) :
    (s.afterStep a n r).nodes m = s.nodes m :=
  Function.update_of_ne h ..

/-- What holds of all nodes after a step of the node `n`. -/
theorem forall_nodes_afterStep {I : N → EngineThreads → Prop} {r : EngineThreads × List Datagram}
    (h : ∀ m, m ≠ n → I m (s.nodes m)) (hn : I n r.1) (m : N) :
    I m ((s.afterStep a n r).nodes m) :=
  (Function.forall_update_iff s.nodes I).mpr ⟨hn, h⟩ m

omit [DecidableEq N] in
/-- What was created before a step was created after it. -/
theorem created_run_calls {op : Operation ℚ} (h : Created κ.history op) :
    Created ((clientSystem ℚ).run κ (((s.nodes n).calls action).map fun call => (id n, call))).history
      op := by
  generalize ((s.nodes n).calls action).map (fun call => (id n, call)) = ls
  induction ls generalizing κ with
  | nil => exact h
  | cons l ls ih => exact ih (Cluster.created_step h l)

/-- A step of a node is a run of the cluster, when what is received was created there. -/
theorem represents_afterStep (action : ThreadAction) (hid : Function.Injective id)
    (h : s.Represents id κ)
    (hclient : ∀ call, action = .client call → s.ClientMay call)
    (hreceive : ∀ r, action = .receive r → ∀ op ∈ r.msg.operations, Created κ.history op) :
    let ls := ((s.nodes n).calls action).map fun call => (id n, call)
    (clientSystem ℚ).Enables κ ls ∧
      (s.afterStep a n ((s.nodes n).step φ action)).Represents id ((clientSystem ℚ).run κ ls) := by
  intro ls
  have henables : (clientSystem ℚ).Enables κ ls := by
    rcases (s.nodes n).calls_cases action with hcalls | ⟨call, haction, hcalls⟩ |
      ⟨msg, host, port, op, rest, -, hreceiver, hcalls⟩
    · simp only [ls, hcalls]
      trivial
    · simp only [ls, hcalls]
      exact ⟨h.enabled_client (hclient call haction), trivial⟩
    · simp only [ls, hcalls]
      refine ⟨h.enabled_applyRemote n (h.receivers n op ?_), trivial⟩
      rw [hreceiver]
      exact List.mem_cons_self
  -- The operations in hand and in new packets come from the node, or have been received.
  have hcreated {op : Operation ℚ} (hop : op ∈ (s.nodes n).receiver.held ∨
      op ∈ (s.nodes n).engine.crdtBook.opLog) : Created κ.history op :=
    hop.elim (h.receivers n op) h.created_of_mem
  refine ⟨henables, ?_⟩
  have hreplicas : ((clientSystem ℚ).run κ ls).replicas = Function.update κ.replicas (id n)
      (((s.nodes n).calls action).foldl Call.run (κ.replicas (id n))) := by
    rcases (s.nodes n).calls_cases action with hcalls | ⟨call, -, hcalls⟩ |
      ⟨_, _, _, op, _, -, -, hcalls⟩
    · simp only [ls, hcalls]
      exact (Function.update_eq_self (id n) κ.replicas).symm
    · simp only [ls, hcalls]
      rfl
    · simp only [ls, hcalls]
      rfl
  constructor
  · exact henables.run_invariant h.inv fun c l hc hl => hc.step l hl.1 hl.2
  · intro m
    rw [hreplicas, replica]
    by_cases hm : m = n
    · subst hm
      rw [Function.update_self, nodes_afterStep_self, EngineThreads.crdtBook_step, h.replica,
        replica]
    · rw [Function.update_of_ne (hid.ne hm), nodes_afterStep_of_ne hm, h.replica, replica]
  · intro x hx
    rw [hreplicas, Function.update_of_ne (hx n).symm, h.others x hx]
  · intro p hp op hop
    refine created_run_calls ?_
    rcases List.mem_append.mp hp with hp | hp
    · exact h.packets p hp op hop
    · obtain ⟨d, hd, -, heq⟩ := Addressing.mem_packets hp
      rw [heq] at hop
      exact hcreated (EngineThreads.mem_sent_step hd hop)
  · refine forall_nodes_afterStep
      (I := fun _ t => ∀ op ∈ t.receiver.held, Created ((clientSystem ℚ).run κ ls).history op)
      (fun m _ op hop => created_run_calls (h.receivers m op hop)) fun op hop => ?_
    refine created_run_calls ?_
    rcases EngineThreads.mem_held_step hop with hheld | hlog | ⟨r, hr, hmem⟩
    · exact hcreated (Or.inl hheld)
    · exact hcreated (Or.inr hlog)
    · exact hreceive r hr op hmem

/-- Every step of a network of threads is a run of the cluster. -/
theorem refines (hid : Function.Injective id) (s₀ : ThreadedNetwork N) :
    (threadSystem φ a s₀).Refines (clientSystem ℚ) (calls id) (Represents id) := by
  have hstep (s : ThreadedNetwork N) (κ : Cluster ℚ) (l : ThreadTurn N) (h : s.Represents id κ)
      (hl : s.CanTake l) : (clientSystem ℚ).Enables κ (calls id s l) ∧
        (s.step φ a l).Represents id ((clientSystem ℚ).run κ (calls id s l)) := by
    cases l with
    | act n action =>
      refine represents_afterStep action hid h (fun call haction => ?_) fun r haction => ?_
      · subst haction
        exact hl
      · subst haction
        exact hl.elim
    | deliver k now =>
      obtain ⟨p, hp, -⟩ := hl
      have hturn := represents_afterStep (a := a) (φ := φ) (n := p.dst) (.receive (receipt p now))
        hid h nofun fun r hr => by
          obtain rfl := ThreadAction.receive.inj hr
          exact h.packets p (List.mem_of_getElem? hp)
      simp only [step, hp]
      exact hturn
  exact ⟨fun s κ l h hl => (hstep s κ l h hl).1, fun s κ l h hl => (hstep s κ l h hl).2⟩

/-- **Interleavings are runs of a cluster.** In whatever order the threads of the nodes take their
critical sections, and whichever of the datagrams arrive, late, repeatedly or in another order, the
calls of the replicas form a run of the cluster that ends with the same replicas. -/
theorem clusterRun_of_enables (φ : GoldenRatio) (a : Addressing N) (hid : Function.Injective id)
    {s₀ : ThreadedNetwork N} (h₀ : s₀.Starts id) {ls : List (ThreadTurn N)}
    (h : (threadSystem φ a s₀).Enables s₀ ls) :
    let calls := (threadSystem φ a s₀).emitted (calls id) s₀ ls
    (clientSystem ℚ).Enables Cluster.init calls ∧
      ∀ n, ((clientSystem ℚ).run Cluster.init calls).replicas (id n) =
        ((threadSystem φ a s₀).run s₀ ls).replica n := by
  intro calls
  obtain ⟨hcalls, hend⟩ := (refines (φ := φ) (a := a) hid s₀).run h₀.represents h
  exact ⟨hcalls, hend.replica⟩

/-! ### A round of two nodes -/

/-- The nodes `a` and `b`. -/
def twoNames (i : Bool) : Str := if i then [97] else [98]

/-- Their hosts are called like them. -/
def twoAddresses : Addressing Bool where
  route host _ := if host = [97] then some true else if host = [98] then some false else none
  host := twoNames
  port _ := 7000

/-- Each of the nodes knows the other one. -/
def twoNodes : ThreadedNetwork Bool where
  nodes i := ⟨.new (twoNames i) (.new (twoNames i)) [⟨twoNames !i, twoNames !i, 7000, true, 0⟩] 2000
    .random, .idle, .waiting⟩
  sent := []

/-- An order is added at `a` and pushed to `b`, which applies it and finds nothing to respond. -/
def pushOfOrder : List (ThreadTurn Bool) :=
  [.act true (.client (.addOrder Side.buy 100 5 [120] [1])), .act true (.choosePeer 0),
    .act true .readClock, .act true .sendRound, .deliver 0 1, .act false .applyNext,
    .act false .lookUp]

theorem injective_twoNames : Function.Injective twoNames := by
  intro i j hij
  cases i <;> cases j <;> first | rfl | cases hij

theorem starts_twoNodes : twoNodes.Starts twoNames := ⟨fun _ => rfl, fun _ => rfl, fun _ => rfl,
  fun _ => rfl, rfl⟩

theorem enables_pushOfOrder :
    (threadSystem .exact twoAddresses twoNodes).Enables twoNodes pushOfOrder :=
  ⟨⟨⟨fun _ _ hop => absurd hop List.not_mem_nil, fun _ _ hop => absurd hop List.not_mem_nil⟩,
    show (0 : ℤ) < 5 by decide⟩, rfl, ⟨_, _, _, rfl⟩, ⟨_, _, _, _, rfl⟩, ⟨_, rfl, rfl⟩,
    ⟨_, _, _, _, _, rfl⟩, ⟨_, _, _, rfl⟩, trivial⟩

theorem clusterRun_of_enables_pushOfOrder :
    let calls := (threadSystem .exact twoAddresses twoNodes).emitted (calls twoNames) twoNodes
      pushOfOrder
    (clientSystem ℚ).Enables Cluster.init calls ∧
      ∀ n, ((clientSystem ℚ).run Cluster.init calls).replicas (twoNames n) =
        ((threadSystem .exact twoAddresses twoNodes).run twoNodes pushOfOrder).replica n :=
  clusterRun_of_enables .exact twoAddresses injective_twoNames starts_twoNodes enables_pushOfOrder

end ThreadedNetwork

end Convergence
