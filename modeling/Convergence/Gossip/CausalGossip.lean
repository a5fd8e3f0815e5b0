import Convergence.Crdt.CausalDelivery
import Convergence.Gossip.ThreadRefinement

/-!
# Gossip that leaves no gap

Of what the engines send, only the push of a round can open a gap: it holds the last twenty
operations of the log and leaves out the others. What answers a request is selected by the clock of
the one who asked; cut off behind or not, and late or not, it can be applied in order. So as long as
the receiver of every push has the operations that the push leaves out, no replica ever has a gap,
whatever the threads and the datagrams do.

A request holds a clock that its sender has had, although it is read apart from the log and the
replica may have advanced since.

## Main definitions

* `Addressing.Returns`: answers reach the one who asked.
* `ThreadedNetwork.PushesSuffice`: receivers have what pushes leave out.
* `ThreadedNetwork.Sound`: what the threads and the datagrams hold.

## Main results

* `ThreadedNetwork.refines_causal`.
* `ThreadedNetwork.consistent_of_pushesSuffice`.
-/

namespace Convergence

open TransitionSystem VectorTime

variable {N : Type*}

/-- A datagram that is sent to where the datagrams of a node come from reaches the node. -/
def Addressing.Returns (a : Addressing N) : Prop := ∀ i, a.route (a.host i) (a.port i) = some i

/-- The address and the clock are those of a node, which may have advanced since. -/
def FromNode (id : N → Str) (a : Addressing N) (κ : Cluster ℚ) (clock : VectorClock) (host : Str)
    (port : ℕ) : Prop :=
  ∃ i, host = a.host i ∧ port = a.port i ∧ clock.get ≤ κ.clocks (id i)

/-- A clock that the gossip thread of the node `x` has read is one that the node has had. -/
def GossipThread.Sound (κ : Cluster ℚ) (x : Str) : GossipThread → Prop
  | clocked _ _ _ clock => clock.get ≤ κ.clocks x
  | _ => True

/-- The receiving thread of the node `n` can apply what it has in hand, or the one who asked can. -/
def ReceiveThread.Sound (id : N → Str) (a : Addressing N) (κ : Cluster ℚ) (n : N) :
    ReceiveThread → Prop
  | waiting => True
  | handling msg host port rest =>
    FromNode id a κ msg.senderClock host port ∧ κ.Deliverable (id n) rest
  | answering _ ops host port => ∃ i, host = a.host i ∧ port = a.port i ∧ κ.Deliverable (id i) ops

/-- The message comes from a node, and the node `n` can apply its operations. -/
structure Message.Sound (id : N → Str) (a : Addressing N) (κ : Cluster ℚ) (n : N) (host : Str)
    (port : ℕ) (msg : Message) : Prop where
  fromNode : FromNode id a κ msg.senderClock host port
  deliverable : κ.Deliverable (id n) msg.operations

section Grows

variable {id : N → Str} {a : Addressing N} {κ κ' : Cluster ℚ} {n : N} {host : Str} {port : ℕ}

theorem FromNode.mono {clock : VectorClock} (h : FromNode id a κ clock host port)
    (hg : κ.Grows κ') : FromNode id a κ' clock host port := by
  obtain ⟨i, hhost, hport, hle⟩ := h
  exact ⟨i, hhost, hport, hle.trans (hg.clocks_le (id i))⟩

theorem GossipThread.Sound.mono {x : Str} {t : GossipThread} (h : t.Sound κ x) (hg : κ.Grows κ') :
    t.Sound κ' x := by
  cases t with
  | clocked _ _ _ clock => exact le_trans h (hg.clocks_le x)
  | _ => trivial

theorem ReceiveThread.Sound.mono {t : ReceiveThread} (h : t.Sound id a κ n) (hg : κ.Grows κ') :
    t.Sound id a κ' n := by
  cases t with
  | waiting => trivial
  | handling => exact ⟨h.1.mono hg, hg.deliverable _ _ h.2⟩
  | answering =>
    obtain ⟨i, hhost, hport, hd⟩ := h
    exact ⟨i, hhost, hport, hg.deliverable _ _ hd⟩

theorem Message.Sound.mono {msg : Message} (h : msg.Sound id a κ n host port)
    (hg : κ.Grows κ') : msg.Sound id a κ' n host port :=
  ⟨h.fromNode.mono hg, hg.deliverable _ _ h.deliverable⟩

end Grows

namespace ThreadedNetwork

variable {id : N → Str} {a : Addressing N} {s : ThreadedNetwork N} {κ : Cluster ℚ} {n : N}
  {action : ThreadAction} {φ : GoldenRatio}

/-- When a round pushes the end of a log, the receiver has seen the operations in front of it. -/
def PushesSuffice (a : Addressing N) (s : ThreadedNetwork N) : ThreadTurn N → Prop
  | .act n .sendRound =>
    ∀ host port mode clock dst, (s.nodes n).gossip = .clocked host port mode clock →
      a.route host port = some dst →
        ((s.nodes n).engine.roundMessage mode).type = .gossipPull ∨
          ∀ op ∈ (s.replica n).opLog.take ((s.replica n).opLog.length - 20),
            op.opId ∈ (s.replica dst).seenOps
  | _ => True

/-- A network that represents a cluster without gaps, and everything on its way can be applied. -/
structure Sound (id : N → Str) (a : Addressing N) (s : ThreadedNetwork N) (κ : Cluster ℚ) : Prop
    extends Represents id s κ where
  logs : κ.CausalLogs
  gossip : ∀ n, (s.nodes n).gossip.Sound κ (id n)
  receiver : ∀ n, (s.nodes n).receiver.Sound id a κ n
  packet : ∀ p ∈ s.sent, p.msg.Sound id a κ p.dst p.senderHost p.senderPort

theorem Starts.sound (h : s.Starts id) : s.Sound id a Cluster.init where
  toRepresents := h.represents
  logs := .init
  gossip n := by
    rw [h.gossip n]
    trivial
  receiver n := by
    rw [h.receiver n]
    trivial
  packet p hp := by
    rw [h.sent] at hp
    exact absurd hp List.not_mem_nil

theorem Represents.clocks_eq (h : s.Represents id κ) (n : N) :
    κ.clocks (id n) = (s.nodes n).engine.crdtBook.clock.get := by
  rw [Cluster.clocks, h.replica n]
  rfl

namespace Sound

/-- The step of a node leaves no gap. -/
theorem guarded_calls (h : s.Sound id a κ) (hlocal : ∀ call, action = .client call → call.IsLocal) :
    (clientSystem ℚ).Guarded Cluster.GapFreeDelivery κ
      (((s.nodes n).calls action).map fun call => (id n, call)) := by
  rcases (s.nodes n).calls_cases action with hcalls | ⟨call, haction, hcalls⟩ |
    ⟨msg, host, port, op, rest, -, hreceiver, hcalls⟩
  · rw [hcalls]
    trivial
  · rw [hcalls]
    refine ⟨?_, trivial⟩
    cases call with
    | applyRemote => exact (hlocal _ haction).elim
    | _ => trivial
  · rw [hcalls]
    have hr := h.receiver n
    rw [hreceiver] at hr
    exact ⟨hr.2.gapFreeDelivery h.inv.toInv, trivial⟩

theorem grows (h : s.Sound id a κ) :
    κ.Grows ((clientSystem ℚ).run κ
      (((s.nodes n).calls action).map fun call => (id n, call))) := by
  rcases (s.nodes n).calls_cases action with hcalls | ⟨call, -, hcalls⟩ |
    ⟨_, _, _, op, _, -, -, hcalls⟩
  · rw [hcalls]
    exact .refl κ
  · rw [hcalls]
    exact h.inv.causal.grows_step _
  · rw [hcalls]
    exact h.inv.causal.grows_step _

/-- The gossip thread after a step. -/
theorem gossip_step (h : s.Sound id a κ) {κ' : Cluster ℚ} (hg : κ.Grows κ') :
    ((s.nodes n).step φ action).1.gossip.Sound κ' (id n) := by
  have hold := (h.gossip n).mono hg
  cases action with
  | choosePeer choice =>
    simp only [EngineThreads.step]
    cases ((s.nodes n).engine.selectPeer φ choice).2.1 <;> trivial
  | readClock =>
    simp only [EngineThreads.step]
    split
    · exact (h.clocks_eq n).ge.trans (hg.clocks_le (id n))
    · exact hold
  | sendRound =>
    simp only [EngineThreads.step]
    split
    · trivial
    · exact hold
  | chooseHeartbeat choice =>
    simp only [EngineThreads.step]
    cases selectRandomPeer (s.nodes n).engine.peers choice <;> trivial
  | sendHeartbeat =>
    simp only [EngineThreads.step]
    split
    · trivial
    · exact hold
  | applyNext =>
    simp only [EngineThreads.step]
    split <;> exact hold
  | lookUp =>
    simp only [EngineThreads.step]
    split <;> exact hold
  | sendAnswer =>
    simp only [EngineThreads.step]
    split <;> exact hold
  | checkLiveness => exact hold
  | receive => exact hold
  | client => exact hold

/-- What responds to a message can be applied by the one who asked. -/
theorem deliverable_response (h : s.Sound id a κ) {i : N} {msg : Message}
    (hclock : msg.senderClock.get ≤ κ.clocks (id i)) {r : MessageType × List (Operation ℚ)}
    (hr : (s.nodes n).engine.response msg = some r) : κ.Deliverable (id i) r.2 := by
  have hops := h.logs.deliverable_getOperationsSince hclock (id n)
  rw [h.replica n] at hops
  rw [GossipEngine.response] at hr
  split_ifs at hr
  · obtain rfl := Option.some.inj hr
    exact hops.front (List.take_prefix 20 _)
  · obtain rfl := Option.some.inj hr
    exact hops
  · obtain rfl := Option.some.inj hr
    exact hops

/-- The receiving thread after a step. -/
theorem receiver_step (h : s.Sound id a κ)
    (hreceive : ∀ r, action = .receive r → r.msg.Sound id a κ n r.senderHost r.senderPort) :
    ((s.nodes n).step φ action).1.receiver.Sound id a ((clientSystem ℚ).run κ
      (((s.nodes n).calls action).map fun call => (id n, call))) n := by
  have hg : κ.Grows ((clientSystem ℚ).run κ
      (((s.nodes n).calls action).map fun call => (id n, call))) := h.grows
  have hold := (h.receiver n).mono hg
  cases action with
  | receive r =>
    have hr := (hreceive r rfl).mono hg
    refine ⟨hr.fromNode, ?_⟩
    rw [Message.toApply]
    split_ifs
    · exact hr.deliverable
    · exact .nil
  | applyNext =>
    have hr := h.receiver n
    rw [EngineThreads.calls] at hg ⊢
    simp only [EngineThreads.step]
    split
    next msg host port op rest heq =>
      rw [heq] at hr hg
      exact ⟨hr.1.mono hg, hr.2.tail h.inv.toInv⟩
    next => exact hr
  | lookUp =>
    have hr := h.receiver n
    simp only [EngineThreads.step]
    split
    next msg host port heq =>
      rw [heq] at hr
      obtain ⟨i, hhost, hport, hclock⟩ := hr.1
      cases hresponse : (s.nodes n).engine.response msg with
      | none => trivial
      | some r => exact ⟨i, hhost, hport, h.deliverable_response hclock hresponse⟩
    next => exact hold
  | sendAnswer =>
    simp only [EngineThreads.step]
    split
    · trivial
    · exact hold
  | readClock =>
    simp only [EngineThreads.step]
    split <;> exact hold
  | sendRound =>
    simp only [EngineThreads.step]
    split <;> exact hold
  | sendHeartbeat =>
    simp only [EngineThreads.step]
    split <;> exact hold
  | choosePeer => exact hold
  | chooseHeartbeat => exact hold
  | checkLiveness => exact hold
  | client => exact hold

/-- A round with the clock that the gossip thread has read. -/
theorem deliverable_roundMessage (h : s.Sound id a κ) {host : Str} {port : ℕ} {mode : SyncMode}
    {clock : VectorClock} {dst : N} (hgossip : (s.nodes n).gossip = .clocked host port mode clock)
    (hroute : a.route host port = some dst) (hpush : s.PushesSuffice a (.act n .sendRound)) :
    κ.Deliverable (id dst) ((s.nodes n).engine.roundMessage mode).operations := by
  have hsuffice := hpush host port mode clock dst hgossip hroute
  rw [GossipEngine.roundMessage] at hsuffice ⊢
  split_ifs at hsuffice ⊢ with hpull hstrategy
  · exact .nil
  · have hseen := hsuffice.resolve_left (by decide : MessageType.gossipPush ≠ .gossipPull)
    rw [← h.replica n, ← h.replica dst] at hseen
    have hd := h.logs.deliverable_drop hseen
    rwa [h.replica n] at hd
  · have hseen := hsuffice.resolve_left (by decide : MessageType.gossipPushPull ≠ .gossipPull)
    rw [← h.replica n, ← h.replica dst] at hseen
    have hd := h.logs.deliverable_drop hseen
    rwa [h.replica n] at hd

/-- What a step sends. -/
theorem datagram_step (h : s.Sound id a κ) (ha : a.Returns)
    (hpush : s.PushesSuffice a (.act n action)) {d : Datagram}
    (hd : d ∈ ((s.nodes n).step φ action).2) {dst : N} (hroute : a.route d.host d.port = some dst) :
    d.msg.Sound id a κ dst (a.host n) (a.port n) := by
  have hclock : FromNode id a κ (s.nodes n).engine.crdtBook.clock (a.host n) (a.port n) :=
    ⟨n, rfl, rfl, (h.clocks_eq n).ge⟩
  have hnone {l : List Datagram} (hl : l = []) (hd : d ∈ l) :
      d.msg.Sound id a κ dst (a.host n) (a.port n) := absurd (hl ▸ hd) List.not_mem_nil
  cases action with
  | receive r =>
    rw [GossipEngine.operations_of_syncRequest hd]
    exact ⟨hclock, .nil⟩
  | sendRound =>
    have hgossip := h.gossip n
    simp only [EngineThreads.step] at hd
    split at hd
    next host port mode clock heq =>
      rw [heq] at hgossip
      obtain rfl := List.mem_singleton.mp hd
      exact ⟨⟨n, rfl, rfl, hgossip⟩, h.deliverable_roundMessage heq hroute hpush⟩
    next => exact hnone rfl hd
  | sendHeartbeat =>
    simp only [EngineThreads.step] at hd
    split at hd
    · obtain rfl := List.mem_singleton.mp hd
      exact ⟨hclock, .nil⟩
    · exact hnone rfl hd
  | sendAnswer =>
    have hreceiver := h.receiver n
    simp only [EngineThreads.step] at hd
    split at hd
    next type ops host port heq =>
      rw [heq] at hreceiver
      obtain rfl := List.mem_singleton.mp hd
      obtain ⟨i, rfl, rfl, hops⟩ := hreceiver
      obtain rfl := Option.some.inj ((ha i).symm.trans hroute)
      exact ⟨hclock, hops⟩
    next => exact hnone rfl hd
  | readClock =>
    simp only [EngineThreads.step] at hd
    split at hd <;> exact hnone rfl hd
  | applyNext =>
    simp only [EngineThreads.step] at hd
    split at hd <;> exact hnone rfl hd
  | lookUp =>
    simp only [EngineThreads.step] at hd
    split at hd <;> exact hnone rfl hd
  | choosePeer => exact hnone rfl hd
  | chooseHeartbeat => exact hnone rfl hd
  | checkLiveness => exact hnone rfl hd
  | client => exact hnone rfl hd

end Sound

/-! ### Runs -/

theorem ClientMay.isLocal {call : Call ℚ} (h : s.ClientMay call) : call.IsLocal := by
  cases call with
  | applyRemote => exact h
  | _ => trivial

/-- What a node is entitled to expect of the others. -/
structure Consistent (s : ThreadedNetwork N) : Prop where
  /-- An answer to a request has everything that the one who asks has not seen. -/
  complete : ∀ n m, ∀ op ∈ (s.replica m).opLog, op.opId ∉ (s.replica n).seenOps →
    op ∈ (s.replica m).getOperationsSince (s.replica n).clock
  /-- An operation is logged after all operations that happened before it. -/
  causal : ∀ n before op after, (s.replica n).opLog = before ++ op :: after →
    ∀ m, ∀ x ∈ (s.replica m).opLog, x.clock.happensBefore op.clock = true → x ∈ before
  /-- An order whose cancellation is logged is not shown. -/
  cancelled : ∀ n, ∀ op ∈ (s.replica n).opLog, op.IsCancel →
    ∀ o ∈ (s.replica n).book.activeOrders, o.orderId ≠ op.cancelOrderId

/-- A network that represents a cluster without gaps is consistent. -/
theorem Sound.consistent (h : s.Sound id a κ) : s.Consistent where
  complete n m op hop hseen := by
    rw [← h.replica n] at hseen ⊢
    rw [← h.replica m] at hop ⊢
    exact (Cluster.antiEntropyComplete_of_gapFree h.inv.toInv h.logs.gapFree).answered _ _ op hop
      hseen
  causal n before op after heq m x hx hbefore := by
    rw [← h.replica n] at heq
    exact (h.logs.closed (id n) before op after heq x (h.created_of_mem hx)
      (VectorClock.happensBefore_iff.mp hbefore)).resolve_right not_false
  cancelled n := by
    have hhold := (Cluster.cancellationsHold_iff h.inv).mpr h.logs.cancellations (id n)
    rwa [h.replica n] at hhold

variable [DecidableEq N]

/-- A step of a node is a run of the cluster without a gap. -/
theorem sound_afterStep (action : ThreadAction) (hid : Function.Injective id) (ha : a.Returns)
    (h : s.Sound id a κ)
    (hclient : ∀ call, action = .client call → s.ClientMay call)
    (hreceive : ∀ r, action = .receive r → r.msg.Sound id a κ n r.senderHost r.senderPort)
    (hpush : s.PushesSuffice a (.act n action)) :
    let ls := ((s.nodes n).calls action).map fun call => (id n, call)
    ((clientSystem ℚ).restrict Cluster.GapFreeDelivery).Enables κ ls ∧
      (s.afterStep a n ((s.nodes n).step φ action)).Sound id a ((clientSystem ℚ).run κ ls) := by
  intro ls
  obtain ⟨henables, hrep⟩ := represents_afterStep (a := a) (φ := φ) (n := n) action hid
    h.toRepresents hclient fun r hr => (hreceive r hr).deliverable.created
  have hls : ((clientSystem ℚ).restrict Cluster.GapFreeDelivery).Enables κ ls :=
    enables_restrict.mpr ⟨henables, h.guarded_calls fun call hcall => (hclient call hcall).isLocal⟩
  have hg : κ.Grows ((clientSystem ℚ).run κ ls) := h.grows
  refine ⟨hls, hrep, ?_, ?_, ?_, fun p hp => ?_⟩
  · exact hls.run_invariant h.logs fun c l hc hl => hc.step l hl.1 hl.2
  · exact forall_nodes_afterStep (I := fun m t => t.gossip.Sound _ (id m))
      (fun m _ => (h.gossip m).mono hg) (h.gossip_step hg)
  · exact forall_nodes_afterStep (I := fun m t => t.receiver.Sound id a _ m)
      (fun m _ => (h.receiver m).mono hg) (h.receiver_step hreceive)
  · rcases List.mem_append.mp hp with hp | hp
    · exact (h.packet p hp).mono hg
    · obtain ⟨d, hd, hroute, heq⟩ := Addressing.mem_packets hp
      rw [heq]
      exact (h.datagram_step ha hpush hd hroute).mono hg

/-- Every step of the threads is a run of the cluster without a gap. -/
theorem refines_causal (hid : Function.Injective id) (ha : a.Returns) (s₀ : ThreadedNetwork N) :
    ((threadSystem φ a s₀).restrict (PushesSuffice a)).Refines
      ((clientSystem ℚ).restrict Cluster.GapFreeDelivery) (calls id) (Sound id a) := by
  have hstep (s : ThreadedNetwork N) (κ : Cluster ℚ) (l : ThreadTurn N) (h : s.Sound id a κ)
      (hl : s.CanTake l ∧ s.PushesSuffice a l) :
      ((clientSystem ℚ).restrict Cluster.GapFreeDelivery).Enables κ (calls id s l) ∧
        (s.step φ a l).Sound id a ((clientSystem ℚ).run κ (calls id s l)) := by
    cases l with
    | act n action =>
      refine sound_afterStep action hid ha h (fun call haction => ?_) (fun r haction => ?_) hl.2
      · subst haction
        exact hl.1
      · subst haction
        exact hl.1.elim
    | deliver k now =>
      obtain ⟨⟨p, hp, -⟩, -⟩ := hl
      have hturn := sound_afterStep (φ := φ) (n := p.dst) (.receive (receipt p now)) hid ha
        h nofun (fun r hr => by
          obtain rfl := ThreadAction.receive.inj hr
          exact h.packet p (List.mem_of_getElem? hp)) trivial
      simp only [step, hp]
      exact hturn
  exact ⟨fun s κ l h hl => (hstep s κ l h hl).1, fun s κ l h hl => (hstep s κ l h hl).2⟩

/-- A run of the threads in which pushes suffice, against the cluster. -/
theorem sound_of_pushesSuffice (hid : Function.Injective id) (ha : a.Returns)
    {s₀ : ThreadedNetwork N} (h₀ : s₀.Starts id) {ls : List (ThreadTurn N)}
    (h : (threadSystem φ a s₀).Enables s₀ ls)
    (hpush : (threadSystem φ a s₀).Guarded (PushesSuffice a) s₀ ls) :
    let calls := (threadSystem φ a s₀).emitted (calls id) s₀ ls
    ((clientSystem ℚ).restrict Cluster.GapFreeDelivery).Enables Cluster.init calls ∧
      ((threadSystem φ a s₀).run s₀ ls).Sound id a ((clientSystem ℚ).run Cluster.init calls) := by
  have hrun := (refines_causal (φ := φ) hid ha s₀).run h₀.sound (enables_restrict.mpr ⟨h, hpush⟩)
  rwa [emitted_restrict] at hrun

/-- **Gossip without gaps.** When the receiver of every push has the operations that the push leaves
out, then in every state, whatever the threads have interleaved and the network has lost, repeated
or reordered, answers are complete, logs are in causal order and cancelled orders are not shown. -/
theorem consistent_of_pushesSuffice (φ : GoldenRatio) (hid : Function.Injective id)
    (ha : a.Returns) {s₀ : ThreadedNetwork N} (h₀ : s₀.Starts id) {ls : List (ThreadTurn N)}
    (h : (threadSystem φ a s₀).Enables s₀ ls)
    (hpush : (threadSystem φ a s₀).Guarded (PushesSuffice a) s₀ ls) :
    ((threadSystem φ a s₀).run s₀ ls).Consistent :=
  (sound_of_pushesSuffice hid ha h₀ h hpush).2.consistent

theorem returns_twoAddresses : twoAddresses.Returns := by
  intro i
  cases i <;> rfl

/-- Orders are added at `a`, whose ids are told apart by their lengths. -/
def ordersAtA (low count : ℕ) : List (ThreadTurn Bool) :=
  (List.range' low count).map fun i => .act true
    (.client (.addOrder Side.buy 100 5 (List.replicate i 120) (List.replicate i 1)))

/-- The ids of all operations are shorter. -/
def ShortIds (m : ℕ) (s : ThreadedNetwork Bool) : Prop :=
  ∀ n, ∀ op ∈ (s.replica n).opLog, op.opId.length < m ∧ op.order.orderId.length < m

theorem enables_ordersAtA {s₀ s : ThreadedNetwork Bool} {low : ℕ} (h : ShortIds low s)
    (count : ℕ) : (threadSystem φ twoAddresses s₀).Enables s (ordersAtA low count) := by
  induction count generalizing low s with
  | zero => trivial
  | succ count ih =>
    have hfresh (n : Bool) (op : Operation ℚ) (hop : op ∈ (s.replica n).opLog) (b : UInt8) :
        op.opId ≠ List.replicate low b ∧ op.order.orderId ≠ List.replicate low b := by
      have hne {x : Str} (hx : x.length < low) : x ≠ List.replicate low b := fun heq => by
        rw [heq, List.length_replicate] at hx
        exact lt_irrefl low hx
      exact ⟨hne (h n op hop).1, hne (h n op hop).2⟩
    refine ⟨⟨⟨fun n op hop _ => (hfresh n op hop _).2, fun n op hop => (hfresh n op hop _).1⟩,
      show (0 : ℤ) < 5 by decide⟩, ih fun n op hop => ?_⟩
    have hold (n : Bool) (hop : op ∈ (s.replica n).opLog) :
        op.opId.length < low + 1 ∧ op.order.orderId.length < low + 1 := by
      have hshort := h n op hop
      omega
    cases n with
    | false => exact hold false hop
    | true =>
      rcases List.mem_append.mp hop with hop | hop
      · exact hold true hop
      · rw [List.mem_singleton.mp hop]
        constructor
        · exact (List.length_replicate).trans_lt (Nat.lt_succ_self low)
        · exact (List.length_replicate).trans_lt (Nat.lt_succ_self low)

theorem pushesSuffice_ordersAtA (s₀ s : ThreadedNetwork Bool) (low count : ℕ) :
    (threadSystem φ twoAddresses s₀).Guarded (PushesSuffice twoAddresses) s
      (ordersAtA low count) := by
  refine guarded_iff_forall.mpr fun before l hle => ?_
  obtain ⟨i, -, rfl⟩ := List.mem_map.mp (hle.subset (List.mem_append_right _ List.mem_cons_self))
  trivial

/-- `a` pushes its operations to `b` a second time. -/
def secondPush : List (ThreadTurn Bool) :=
  [.act true (.choosePeer 0), .act true .readClock, .act true .sendRound, .deliver 1 2,
    .act false .applyNext]

/-- A push of the last twenty of 21 operations leaves out the first one, which `b` has from a push
before. -/
theorem consistent_secondPush :
    ((threadSystem .exact twoAddresses twoNodes).run twoNodes
      (pushOfOrder ++ (ordersAtA 2 20 ++ secondPush))).Consistent := by
  set s₁ := (threadSystem .exact twoAddresses twoNodes).run twoNodes pushOfOrder with hs₁
  have hshort : ShortIds 2 s₁ := fun n op hop => by
    cases n with
    | false => exact List.mem_singleton.mp hop ▸ ⟨Nat.lt_succ_self 1, Nat.lt_succ_self 1⟩
    | true => exact List.mem_singleton.mp hop ▸ ⟨Nat.lt_succ_self 1, Nat.lt_succ_self 1⟩
  have hfirst : (threadSystem .exact twoAddresses twoNodes).Guarded (PushesSuffice twoAddresses)
      twoNodes pushOfOrder :=
    ⟨trivial, trivial, trivial,
      fun _ _ _ _ _ _ _ => Or.inr fun _ hop => absurd hop List.not_mem_nil, trivial, trivial,
      trivial, trivial⟩
  refine consistent_of_pushesSuffice .exact injective_twoNames returns_twoAddresses starts_twoNodes
    (enables_append.mpr ⟨enables_pushOfOrder, enables_append.mpr ⟨enables_ordersAtA hshort 20, ?_⟩⟩)
    (guarded_append.mpr ⟨hfirst, guarded_append.mpr ⟨pushesSuffice_ordersAtA _ _ _ _, ?_⟩⟩)
  · exact ⟨rfl, ⟨_, _, _, rfl⟩, ⟨_, _, _, _, rfl⟩, ⟨_, rfl, rfl⟩, ⟨_, _, _, _, _, rfl⟩, trivial⟩
  · refine ⟨trivial, trivial, fun host port mode clock dst hgossip hroute => Or.inr ?_, trivial,
      trivial, trivial⟩
    obtain ⟨rfl, rfl, -, -⟩ := GossipThread.clocked.inj hgossip
    obtain rfl : false = dst := Option.some.inj hroute
    intro op hop
    rw [List.mem_singleton.mp hop]
    exact Finset.mem_insert_self ..

end ThreadedNetwork

end Convergence
