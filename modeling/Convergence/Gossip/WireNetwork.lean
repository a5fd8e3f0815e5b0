import Convergence.Gossip.WireMessages
import Convergence.Gossip.WirePrices

/-!
# A network of bytes

What `send_message` hands to `sendto` is the encoding of a message, and what `receive_loop` hands to
`handle_message` has been decoded. An encoding that is too long for a datagram is not sent. Here the
threads of the engines send each other bytes, and every run is matched by a run in which they send
each other messages: the nodes at the end show the same, and their logs and clocks match. All it
takes is that the numbers that clients bring in survive the encoding.

## Main definitions

* `WirePacket`, `WireNetwork`, `WireTurn`, `datagramSystem`.
* `CRDTOrderBook.Portable`, `EngineThreads.Portable`: all numbers in a node survive a hop.
* `WireNetwork.Carries`: a network of bytes against one of messages.

## Main results

* `WireNetwork.simulates`, `WireNetwork.exists_run_of_messages`.
-/

namespace Convergence

open TransitionSystem

/-! ### Sending and receiving bytes -/

/-- A datagram in flight, with what its receiver learns about the sender's socket. -/
structure WirePacket (N : Type*) where
  dst : N
  data : List UInt8
  senderHost : Str
  senderPort : ℕ

/-- `send_message`, for the datagrams of one step of the node `n`: `sendto` refuses an encoding that
is too long. -/
def Addressing.wirePackets {N : Type*} (a : Addressing N) (rnd : ℚ → ℚ) (n : N)
    (datagrams : List Datagram) : List (WirePacket N) :=
  datagrams.filterMap fun d =>
    let data := d.msg.serialize rnd
    if data.length ≤ maxDatagram then
      (a.route d.host d.port).map fun dst => ⟨dst, data, a.host n, a.port n⟩
    else none

/-- A message that fits, to an address that leads somewhere. -/
theorem Addressing.wirePackets_singleton {N : Type*} {a : Addressing N} {rnd : ℚ → ℚ} (n : N)
    {d : Datagram} {dst : N} (hfits : (d.msg.serialize rnd).length ≤ maxDatagram)
    (hroute : a.route d.host d.port = some dst) :
    a.wirePackets rnd n [d] = [⟨dst, d.msg.serialize rnd, a.host n, a.port n⟩] := by
  simp [wirePackets, hfits, hroute]

/-- What `receive_loop` makes of a datagram: nothing when it cannot be decoded. -/
def WirePacket.receipt {N : Type*} (rnd : ℚ → ℚ) (p : WirePacket N) (now : ℕ)
    (beyond : ℕ → UInt8) : Option Receipt :=
  if p.data = [] then none
  else
    match (Message.decode rnd p.data beyond).result with
    | .error _ => none
    | .ok msg => some ⟨msg, p.senderHost, p.senderPort, now⟩

/-- The nodes, and all datagrams sent so far. -/
structure WireNetwork (N : Type*) where
  nodes : N → EngineThreads
  sent : List (WirePacket N)

/-- The steps of a network of bytes. A datagram is decoded in a buffer that goes on with
`beyond`. -/
inductive WireTurn (N : Type*)
  | act (n : N) (action : ThreadAction)
  | deliver (k now : ℕ) (beyond : ℕ → UInt8)

namespace WireNetwork

variable {N : Type*} [DecidableEq N]

/-- The node `n` has taken a step, in which it sent datagrams. -/
def afterStep (rnd : ℚ → ℚ) (a : Addressing N) (s : WireNetwork N) (n : N)
    (r : EngineThreads × List Datagram) : WireNetwork N where
  nodes := Function.update s.nodes n r.1
  sent := s.sent ++ a.wirePackets rnd n r.2

/-- A network after a step. -/
def step (rnd : ℚ → ℚ) (φ : GoldenRatio) (a : Addressing N) (s : WireNetwork N) :
    WireTurn N → WireNetwork N
  | .act n action => s.afterStep rnd a n ((s.nodes n).step φ action)
  | .deliver k now beyond =>
    match s.sent[k]? with
    | none => s
    | some p =>
      match p.receipt rnd now beyond with
      | none => s
      | some r => s.afterStep rnd a p.dst ((s.nodes p.dst).step φ (.receive r))

/-- The nodes, with no messages on their way. -/
def threads (s : WireNetwork N) : ThreadedNetwork N := ⟨s.nodes, []⟩

/-- The step can be taken: see `ThreadedNetwork.CanTake`. -/
def CanTake (s : WireNetwork N) : WireTurn N → Prop
  | .act n action => s.threads.CanTake (.act n action)
  | .deliver k _ _ => ∃ p, s.sent[k]? = some p ∧ (s.nodes p.dst).receiver = .waiting

end WireNetwork

/-- The runs of a network of bytes from the state `s`. -/
def datagramSystem {N : Type*} [DecidableEq N] (rnd : ℚ → ℚ) (φ : GoldenRatio) (a : Addressing N)
    (s : WireNetwork N) : TransitionSystem (WireNetwork N) (WireTurn N) where
  init := s
  enabled := WireNetwork.CanTake
  step := WireNetwork.step rnd φ a

/-! ### Numbers in a node -/

/-- The numbers that the call of a client brings in survive a hop, and the clock does not
overflow. -/
def Call.Portable (rnd : ℚ → ℚ) (r : CRDTOrderBook ℚ) : Call ℚ → Prop
  | addOrder _ price quantity _ _ =>
    (hop rnd price = .ok price ∧ IsInt64 quantity) ∧ r.clock.get r.clock.nodeId + 1 < 2 ^ 64
  | _ => r.clock.get r.clock.nodeId + 1 < 2 ^ 64

theorem Call.Portable.lt {rnd : ℚ → ℚ} {r : CRDTOrderBook ℚ} {call : Call ℚ}
    (h : call.Portable rnd r) : r.clock.get r.clock.nodeId + 1 < 2 ^ 64 := by
  cases call with
  | addOrder => exact h.2
  | _ => exact h

theorem VectorClock.CountersFit.tick {c : VectorClock} (h : c.CountersFit)
    (hlt : c.get c.nodeId + 1 < 2 ^ 64) : c.tick.1.CountersFit := by
  intro k
  rw [get_tick, VectorTime.tick, Function.update_apply]
  split_ifs
  · exact hlt
  · exact h k

theorem VectorClock.CountersFit.merge {c d : VectorClock} (h : c.CountersFit)
    (h' : d.CountersFit) : (c.merge d).CountersFit := by
  intro k
  rw [get_merge]
  exact max_lt (h k) (h' k)

/-- The numbers in a replica survive a hop. -/
structure CRDTOrderBook.Portable (rnd : ℚ → ℚ) (r : CRDTOrderBook ℚ) : Prop where
  clock : r.clock.CountersFit
  opLog : ∀ op ∈ r.opLog, op.Portable rnd

namespace CRDTOrderBook.Portable

variable {rnd : ℚ → ℚ} {r : CRDTOrderBook ℚ} {op : Operation ℚ}

theorem ticked (h : r.Portable rnd) (hlt : r.clock.get r.clock.nodeId + 1 < 2 ^ 64)
    (b : OrderBook ℚ) : (r.ticked b).Portable rnd :=
  ⟨h.clock.tick hlt, h.opLog⟩

theorem log (h : r.Portable rnd) (hop : op.Portable rnd) : (r.log op).Portable rnd where
  clock := h.clock
  opLog := List.forall_mem_append.mpr ⟨h.opLog, List.forall_mem_singleton.mpr hop⟩

theorem cancelOperation (h : r.Portable rnd) (orderId opId : Str) (u : Uninit ℚ) :
    (r.cancelOperation orderId opId u).Portable rnd where
  order hadd := absurd hadd (Operation.IsCancel.not_isAdd rfl)
  clock := h.clock

theorem logFills (h : r.Portable rnd) (gen : ℕ → Str × Uninit ℚ) (fills : List (Fill ℚ)) :
    (r.logFills gen fills).Portable rnd := by
  induction fills generalizing r gen with
  | nil => exact h
  | cons fill fills ih =>
    rw [CRDTOrderBook.logFills]
    split_ifs
    · exact ih h gen
    · exact ih (h.log (h.cancelOperation ..)) _

theorem applyRemoteOperation (h : r.Portable rnd) (hop : op.Portable rnd) :
    (r.applyRemoteOperation op).1.Portable rnd := by
  by_cases hseen : op.opId ∈ r.seenOps
  · rwa [applyRemoteOperation_of_seen hseen]
  · constructor
    · rw [clock_applyRemoteOperation hseen]
      exact h.clock.merge hop.clock
    · rw [opLog_applyRemoteOperation hseen]
      exact List.forall_mem_append.mpr ⟨h.opLog, List.forall_mem_singleton.mpr hop⟩

/-- The call of a client. -/
theorem run (h : r.Portable rnd) {call : Call ℚ} (hlocal : call.IsLocal)
    (hcall : call.Portable rnd r) : (call.run r).Portable rnd := by
  cases call with
  | addOrder side price quantity oid opId =>
    obtain ⟨⟨hprice, hquantity⟩, hlt⟩ := hcall
    exact (h.ticked hlt _).log ⟨fun _ => ⟨hprice, hquantity, hquantity, hlt⟩, h.clock.tick hlt⟩
  | cancelOrder orderId opId u =>
    have hlt := hcall.lt
    by_cases hid : orderId ∈ r.book.orders
    · rw [Call.run, localCancelOrder_of_mem hid]
      split_ifs
      · exact (h.ticked hlt _).log ((h.ticked hlt _).cancelOperation ..)
      · exact h.ticked hlt _
    · rwa [Call.run, localCancelOrder_of_notMem hid]
  | marketOrder side quantity gen => exact (h.ticked hcall.lt _).logFills gen _
  | applyRemote => exact hlocal.elim

end CRDTOrderBook.Portable

/-- The numbers in a node, and in what its threads have in hand, survive a hop. -/
structure EngineThreads.Portable (rnd : ℚ → ℚ) (s : EngineThreads) : Prop where
  crdtBook : s.engine.crdtBook.Portable rnd
  gossip : ∀ host port mode clock, s.gossip = .clocked host port mode clock → clock.CountersFit
  held : ∀ op ∈ s.receiver.held, op.Portable rnd

namespace EngineThreads

variable {rnd : ℚ → ℚ} {φ : GoldenRatio} {s : EngineThreads} {action : ThreadAction}

/-- A clock that the gossip thread holds is that of the replica, when it has just been read. -/
theorem clocked_step {host : Str} {port : ℕ} {mode : SyncMode} {clock : VectorClock}
    (h : (s.step φ action).1.gossip = .clocked host port mode clock) :
    s.gossip = .clocked host port mode clock ∨ clock = s.engine.crdtBook.clock := by
  obtain ⟨e, g, r⟩ := s
  cases action with
  | choosePeer choice =>
    simp only [step] at h
    cases hp : (e.selectPeer φ choice).2.1 <;> simp [hp] at h
  | chooseHeartbeat choice =>
    simp only [step] at h
    cases hp : selectRandomPeer e.peers choice <;> simp [hp] at h
  | readClock =>
    cases g with
    | chosen =>
      cases h
      exact Or.inr rfl
    | _ => exact Or.inl h
  | sendRound =>
    cases g with
    | clocked => cases h
    | _ => exact Or.inl h
  | sendHeartbeat =>
    cases g with
    | beating => cases h
    | _ => exact Or.inl h
  | applyNext =>
    cases r with
    | handling m host port rest => cases rest <;> exact Or.inl h
    | _ => exact Or.inl h
  | lookUp =>
    cases r with
    | handling m host port rest => cases rest <;> exact Or.inl h
    | _ => exact Or.inl h
  | sendAnswer => cases r <;> exact Or.inl h
  | _ => exact Or.inl h

/-- A message is sent with the clock of the replica, or with the one that was read before. -/
theorem senderClock_step {d : Datagram} (hd : d ∈ (s.step φ action).2) :
    d.msg.senderClock = s.engine.crdtBook.clock ∨
      ∃ host port mode, s.gossip = .clocked host port mode d.msg.senderClock := by
  have hnone {l : List Datagram} (hl : l = []) (hd : d ∈ l) :
      d.msg.senderClock = s.engine.crdtBook.clock ∨
        ∃ host port mode, s.gossip = .clocked host port mode d.msg.senderClock :=
    absurd (hl ▸ hd) List.not_mem_nil
  obtain ⟨e, g, r⟩ := s
  cases action with
  | receive r =>
    rw [GossipEngine.operations_of_syncRequest hd]
    exact Or.inl rfl
  | sendRound =>
    cases g with
    | clocked host port mode clock =>
      obtain rfl := List.mem_singleton.mp hd
      exact Or.inr ⟨host, port, mode, rfl⟩
    | _ => exact hnone rfl hd
  | sendHeartbeat =>
    cases g with
    | beating =>
      obtain rfl := List.mem_singleton.mp hd
      exact Or.inl rfl
    | _ => exact hnone rfl hd
  | sendAnswer =>
    cases r with
    | answering =>
      obtain rfl := List.mem_singleton.mp hd
      exact Or.inl rfl
    | _ => exact hnone rfl hd
  | readClock => cases g <;> exact hnone rfl hd
  | applyNext =>
    cases r with
    | handling m host port rest => cases rest <;> exact hnone rfl hd
    | _ => exact hnone rfl hd
  | lookUp =>
    cases r with
    | handling m host port rest => cases rest <;> exact hnone rfl hd
    | _ => exact hnone rfl hd
  | _ => exact hnone rfl hd

namespace Portable

/-- The operations in a node. -/
theorem operation (h : s.Portable rnd) {op : Operation ℚ}
    (hop : op ∈ s.receiver.held ∨ op ∈ s.engine.crdtBook.opLog) : op.Portable rnd :=
  hop.elim (h.held op) (h.crdtBook.opLog op)

theorem crdtBook_step (h : s.Portable rnd)
    (hclient : ∀ call, action = .client call → call.IsLocal ∧
      call.Portable rnd s.engine.crdtBook) :
    (s.step φ action).1.engine.crdtBook.Portable rnd := by
  rw [EngineThreads.crdtBook_step]
  rcases s.calls_cases action with hcalls | ⟨call, haction, hcalls⟩ |
    ⟨msg, host, port, op, rest, -, hreceiver, hcalls⟩
  · rw [hcalls]
    exact h.crdtBook
  · rw [hcalls]
    exact h.crdtBook.run (hclient call haction).1 (hclient call haction).2
  · rw [hcalls]
    refine h.crdtBook.applyRemoteOperation (h.held op ?_)
    rw [hreceiver]
    exact List.mem_cons_self

theorem step (h : s.Portable rnd)
    (hclient : ∀ call, action = .client call → call.IsLocal ∧
      call.Portable rnd s.engine.crdtBook)
    (hreceive : ∀ r, action = .receive r → ∀ op ∈ r.msg.operations, op.Portable rnd) :
    (s.step φ action).1.Portable rnd where
  crdtBook := h.crdtBook_step hclient
  gossip host port mode clock heq := by
    rcases clocked_step heq with hbefore | rfl
    · exact h.gossip host port mode clock hbefore
    · exact h.crdtBook.clock
  held op hop := by
    rcases mem_held_step hop with hheld | hlog | ⟨r, hr, hmem⟩
    · exact h.operation (Or.inl hheld)
    · exact h.operation (Or.inr hlog)
    · exact hreceive r hr op hmem

/-- What a node sends. -/
theorem sent (h : s.Portable rnd) {d : Datagram} (hd : d ∈ (s.step φ action).2) :
    d.msg.Portable rnd where
  senderClock := by
    rcases senderClock_step hd with heq | ⟨host, port, mode, heq⟩
    · rw [heq]
      exact h.crdtBook.clock
    · exact h.gossip host port mode _ heq
  operations op hop := h.operation (mem_sent_step hd hop)

end Portable

end EngineThreads

/-! ### Bytes against messages -/

namespace WireNetwork

variable {N : Type*} {rnd : ℚ → ℚ} {φ : GoldenRatio} {a : Addressing N} {s : WireNetwork N}
  {t : ThreadedNetwork N}

/-- A datagram carries a message that has been sent to the same node. -/
structure CarriesPacket (rnd : ℚ → ℚ) (p : WirePacket N) (q : Packet N) : Prop where
  dst : p.dst = q.dst
  senderHost : p.senderHost = q.senderHost
  senderPort : p.senderPort = q.senderPort
  data : ∃ m, q.msg.Matches m ∧ m.Fits rnd ∧ m.Portable rnd ∧ p.data = m.serialize rnd

/-- The nodes match, their numbers survive a hop, and every datagram carries a message that has been
sent. -/
structure Carries (rnd : ℚ → ℚ) (s : WireNetwork N) (t : ThreadedNetwork N) : Prop where
  nodes : ∀ n, (t.nodes n).Matches (s.nodes n)
  portable : ∀ n, (s.nodes n).Portable rnd
  sent : ∀ p ∈ s.sent, ∃ q ∈ t.sent, CarriesPacket rnd p q

/-- The numbers that clients bring in survive a hop. -/
def Portable (rnd : ℚ → ℚ) (s : WireNetwork N) : WireTurn N → Prop
  | .act n (.client call) => call.Portable rnd (s.nodes n).engine.crdtBook
  | _ => True

/-- What is decoded of a datagram matches the message that was sent. -/
theorem CarriesPacket.receipt {p : WirePacket N} {q : Packet N} (h : CarriesPacket rnd p q)
    (now : ℕ) (beyond : ℕ → UInt8) :
    ∃ m', q.msg.Matches m' ∧ m'.Portable rnd ∧
      p.receipt rnd now beyond = some ⟨m', q.senderHost, q.senderPort, now⟩ := by
  obtain ⟨m, hm, hfits, hportable, hdata⟩ := h.data
  obtain ⟨m', hm', hdecode⟩ := Message.decode_matches hfits hportable beyond
  have hclock : m'.senderClock.CountersFit := by
    rw [VectorClock.CountersFit, ← hm'.senderClock.get]
    exact hportable.senderClock
  refine ⟨m', hm.trans hm', ⟨hclock, hm'.operations.portable hportable.operations⟩, ?_⟩
  have hne : m.serialize rnd ≠ [] := by
    rw [Message.serialize_eq]
    exact List.cons_ne_nil _ _
  rw [WirePacket.receipt, hdata, if_neg hne, hdecode, h.senderHost, h.senderPort]

/-- What a node sends as bytes, its counterpart sends as messages. -/
theorem carries_packets {ds ds' : List Datagram} (hds : List.Forall₂ Datagram.Matches ds ds')
    (hportable : ∀ d ∈ ds', d.msg.Portable rnd) (n : N) :
    ∀ p ∈ a.wirePackets rnd n ds', ∃ q ∈ a.packets n ds, CarriesPacket rnd p q := by
  intro p hp
  obtain ⟨d', hd', hsent⟩ := List.mem_filterMap.mp hp
  obtain ⟨d, hd, hmatch⟩ : ∃ d ∈ ds, Datagram.Matches d d' := by
    clear hp hsent hportable
    induction hds with
    | nil => exact absurd hd' List.not_mem_nil
    | cons hhead _ ih =>
      rcases List.mem_cons.mp hd' with rfl | hd'
      · exact ⟨_, List.mem_cons_self, hhead⟩
      · exact (ih hd').imp fun d hd => ⟨List.mem_cons_of_mem _ hd.1, hd.2⟩
  simp only at hsent
  split_ifs at hsent with hfits
  obtain ⟨dst, hroute, rfl⟩ := Option.map_eq_some_iff.mp hsent
  refine ⟨⟨some n, dst, d.msg, a.host n, a.port n⟩, ?_, rfl, rfl, rfl,
    d'.msg, hmatch.msg, hfits, hportable d' hd', rfl⟩
  refine List.mem_filterMap.mpr ⟨d, hd, ?_⟩
  rw [hmatch.host, hmatch.port, hroute]
  rfl

variable [DecidableEq N] {n : N} {action action' : ThreadAction}

/-- A step of a node on bytes, and the step of its counterpart on messages. -/
theorem Carries.afterStep (h : s.Carries rnd t) (haction : action.Matches action')
    (hclient : ∀ call, action' = .client call → call.IsLocal ∧
      call.Portable rnd (s.nodes n).engine.crdtBook)
    (hreceive : ∀ r, action' = .receive r → ∀ op ∈ r.msg.operations, op.Portable rnd) :
    (s.afterStep rnd a n ((s.nodes n).step φ action')).Carries rnd
      (t.afterStep a n ((t.nodes n).step φ action)) := by
  obtain ⟨hnodes, hsent⟩ := (h.nodes n).step φ haction
  constructor
  · intro m
    by_cases hm : m = n
    · subst hm
      rw [ThreadedNetwork.nodes_afterStep_self]
      change ((t.nodes m).step φ action).1.Matches
        (Function.update s.nodes m ((s.nodes m).step φ action').1 m)
      rwa [Function.update_self]
    · rw [ThreadedNetwork.nodes_afterStep_of_ne hm]
      change (t.nodes m).Matches (Function.update s.nodes n ((s.nodes n).step φ action').1 m)
      rw [Function.update_of_ne hm]
      exact h.nodes m
  · intro m
    change (Function.update s.nodes n ((s.nodes n).step φ action').1 m).Portable rnd
    exact (Function.forall_update_iff s.nodes fun _ t => t.Portable rnd).mpr
      ⟨(h.portable n).step hclient hreceive, fun m _ => h.portable m⟩ m
  · intro p hp
    rcases List.mem_append.mp hp with hp | hp
    · obtain ⟨q, hq, hcarries⟩ := h.sent p hp
      exact ⟨q, List.mem_append_left _ hq, hcarries⟩
    · obtain ⟨q, hq, hcarries⟩ := carries_packets hsent
        (fun d hd => (h.portable n).sent hd) n p hp
      exact ⟨q, List.mem_append_right _ hq, hcarries⟩

omit [DecidableEq N] in
/-- What clients may do, they may do to the counterparts. -/
theorem Carries.clientMay (h : s.Carries rnd t) {call : Call ℚ} (hcall : s.threads.ClientMay call) :
    t.ClientMay call := by
  have hlog (n : N) : OperationsMatch (t.replica n).opLog (s.threads.replica n).opLog :=
    (h.nodes n).engine.crdtBook.opLog
  have hopId {id : Str} (hfresh : s.threads.FreshOpId id) : t.FreshOpId id := fun n =>
    (hlog n).forall_of (fun _ _ hop hne => hop.opId ▸ hne) (hfresh n)
  have horderId {id : Str} (hfresh : s.threads.FreshOrderId id) : t.FreshOrderId id := fun n =>
    (hlog n).forall_of (fun _ _ hop hne hadd => hop.order hadd ▸ hne (hop.isAdd_iff.mp hadd))
      (hfresh n)
  cases call with
  | addOrder => exact ⟨⟨horderId hcall.1.1, hopId hcall.1.2⟩, hcall.2⟩
  | cancelOrder => exact hopId hcall
  | marketOrder => exact ⟨hcall.1, fun i => hopId (hcall.2 i)⟩
  | applyRemote => exact hcall.elim

/-- Every step on bytes is matched by a step on messages. -/
theorem simulates (s₀ : WireNetwork N) (t₀ : ThreadedNetwork N) :
    (threadSystem φ a t₀).Simulates ((datagramSystem rnd φ a s₀).restrict (Portable rnd))
      (Carries rnd) := by
  rintro s t l h ⟨hl, hportable⟩
  cases l with
  | act n action =>
    have hown (haction : action.IsOwn) (hs : (s.nodes n).CanTake action) :
        t.CanTake (.act n action) ∧ (s.afterStep rnd a n ((s.nodes n).step φ action)).Carries rnd
          (t.afterStep a n ((t.nodes n).step φ action)) := by
      refine ⟨ThreadedNetwork.canTake_act haction ((h.nodes n).canTake haction hs),
        h.afterStep (.own haction) ?_ ?_⟩
      · rintro call rfl
        exact haction.elim
      · rintro r rfl
        exact haction.elim
    suffices hturn : t.CanTake (.act n action) ∧
        (s.afterStep rnd a n ((s.nodes n).step φ action)).Carries rnd
          (t.afterStep a n ((t.nodes n).step φ action)) from
      ⟨[.act n action], ⟨hturn.1, trivial⟩, hturn.2⟩
    cases action with
    | receive => exact hl.elim
    | client call =>
      have hcall := h.clientMay hl
      have hlocal : call.IsLocal := by
        cases call with
        | applyRemote => exact hcall.elim
        | _ => trivial
      refine ⟨hcall, h.afterStep (.client hlocal) (fun call' heq => ?_)
        fun _ heq => by cases heq⟩
      obtain rfl := ThreadAction.client.inj heq
      exact ⟨hlocal, hportable⟩
    | _ => exact hown trivial hl
  | deliver k now beyond =>
    obtain ⟨p, hp, hwaiting⟩ := hl
    obtain ⟨q, hq, hcarries⟩ := h.sent p (List.mem_of_getElem? hp)
    obtain ⟨k', hq⟩ := List.getElem?_of_mem hq
    obtain ⟨m', hm, hm', hreceipt⟩ := hcarries.receipt now beyond
    have hready : (t.nodes q.dst).receiver = .waiting := by
      have hreceiver := (h.nodes q.dst).receiver
      rw [← hcarries.dst, hwaiting] at hreceiver
      rw [← hcarries.dst]
      cases hr : (t.nodes p.dst).receiver with
      | waiting => rfl
      | handling =>
        rw [hr] at hreceiver
        cases hreceiver
      | answering =>
        rw [hr] at hreceiver
        cases hreceiver
    refine ⟨[.deliver k' now], ⟨⟨q, hq, hready⟩, trivial⟩, ?_⟩
    change (s.step rnd φ a (.deliver k now beyond)).Carries rnd (t.step φ a (.deliver k' now))
    simp only [step, ThreadedNetwork.step, hp, hq, hreceipt, hcarries.dst]
    refine h.afterStep (.receive hm _ _ _) (fun _ heq => by cases heq) fun r hr => ?_
    obtain rfl := ThreadAction.receive.inj hr
    exact hm'.operations

omit [DecidableEq N] in
/-- Fresh nodes that have sent nothing. -/
theorem carries_threads {id : N → Str} (h₀ : s.threads.Starts id) (hsent : s.sent = []) :
    s.Carries rnd s.threads where
  nodes n := by
    refine ⟨.refl _, ?_, ?_⟩
    · rw [h₀.gossip n, show (s.nodes n).gossip = .idle from h₀.gossip n]
      exact .idle
    · rw [h₀.receiver n, show (s.nodes n).receiver = .waiting from h₀.receiver n]
      exact .waiting
  portable n := by
    have hbook : (s.nodes n).engine.crdtBook = .new (id n) := h₀.crdtBook n
    refine ⟨?_, fun host port mode clock heq => ?_, fun op hop => ?_⟩
    · rw [hbook]
      refine ⟨fun k => ?_, fun op hop => absurd hop List.not_mem_nil⟩
      rw [CRDTOrderBook.new, VectorClock.get_new]
      exact Nat.two_pow_pos 64
    · rw [show (s.nodes n).gossip = .idle from h₀.gossip n] at heq
      cases heq
    · rw [show (s.nodes n).receiver = .waiting from h₀.receiver n] at hop
      exact absurd hop List.not_mem_nil
  sent p hp := by
    rw [hsent] at hp
    exact absurd hp List.not_mem_nil

/-- **Bytes do what messages do.** As long as the numbers that clients bring in survive the
encoding, every run of threads that send each other bytes, late, repeatedly, in another order or not
at all, is matched by a run of threads that send each other messages, and by a run of a cluster:
the nodes at the end stand at the same places and show the same books, and their logs and clocks
match. -/
theorem exists_run_of_messages (rnd : ℚ → ℚ) (φ : GoldenRatio) (a : Addressing N) {id : N → Str}
    (hid : Function.Injective id) {s₀ : WireNetwork N} (h₀ : s₀.threads.Starts id)
    (hsent : s₀.sent = []) {ls : List (WireTurn N)}
    (h : (datagramSystem rnd φ a s₀).Enables s₀ ls)
    (hportable : (datagramSystem rnd φ a s₀).Guarded (Portable rnd) s₀ ls) :
    ∃ ls', (threadSystem φ a s₀.threads).Enables s₀.threads ls' ∧
      (∀ n, (((threadSystem φ a s₀.threads).run s₀.threads ls').nodes n).Matches
        (((datagramSystem rnd φ a s₀).run s₀ ls).nodes n)) ∧
      let calls := (threadSystem φ a s₀.threads).emitted (ThreadedNetwork.calls id) s₀.threads ls'
      (clientSystem ℚ).Enables Cluster.init calls ∧
        ∀ n, (((clientSystem ℚ).run Cluster.init calls).replicas (id n)).Matches
          (((datagramSystem rnd φ a s₀).run s₀ ls).nodes n).engine.crdtBook := by
  obtain ⟨ls', hls', hend⟩ := (simulates (φ := φ) (a := a) s₀ s₀.threads).run
    (carries_threads h₀ hsent) (enables_restrict.mpr ⟨h, hportable⟩)
  obtain ⟨hcalls, hcluster⟩ := (ThreadedNetwork.refines hid s₀.threads).run h₀.represents hls'
  refine ⟨ls', hls', hend.nodes, hcalls, fun n => ?_⟩
  rw [hcluster.replica n]
  exact (hend.nodes n).engine.crdtBook

/-! ### A push on the wire -/

/-- Two fresh nodes. -/
def twoWired : WireNetwork Bool := ⟨ThreadedNetwork.twoNodes.nodes, []⟩

/-- An order is added at `a` and pushed to `b`, which receives and decodes the push. -/
def pushOfBytes : List (WireTurn Bool) :=
  [.act true (.client (.addOrder Side.buy 100 5 [120] [1])), .act true (.choosePeer 0),
    .act true .readClock, .act true .sendRound, .deliver 0 1 fun _ => 0]

/-- The push about to be sent. -/
def beforePush : WireNetwork Bool :=
  (datagramSystem id .exact ThreadedNetwork.twoAddresses twoWired).run twoWired (pushOfBytes.take 3)

/-- The push that is sent. -/
def sampleRound : Datagram where
  msg := (beforePush.nodes true).engine.roundMessage .push
  host := [98]
  port := 7000

theorem length_sampleRound : (sampleRound.msg.serialize id).length ≤ maxDatagram := by
  rw [Message.length_serialize]
  decide

theorem sent_pushOfBytes :
    (beforePush.step id .exact ThreadedNetwork.twoAddresses (.act true .sendRound)).sent =
      [⟨false, sampleRound.msg.serialize id, [97], 7000⟩] := by
  have hsend : ((beforePush.nodes true).step .exact .sendRound).2 = [sampleRound] := rfl
  change [] ++ ThreadedNetwork.twoAddresses.wirePackets id true
    ((beforePush.nodes true).step .exact .sendRound).2 = _
  rw [hsend, Addressing.wirePackets_singleton true length_sampleRound rfl]
  rfl

theorem enables_pushOfBytes :
    (datagramSystem id .exact ThreadedNetwork.twoAddresses twoWired).Enables twoWired
      pushOfBytes := by
  have hfront : (datagramSystem id .exact ThreadedNetwork.twoAddresses twoWired).Enables twoWired
      (pushOfBytes.take 4) :=
    ⟨ThreadedNetwork.enables_pushOfOrder.1, rfl, ⟨_, _, _, rfl⟩, ⟨_, _, _, _, rfl⟩, trivial⟩
  have hdeliver : (beforePush.step id .exact ThreadedNetwork.twoAddresses
      (.act true .sendRound)).CanTake (.deliver 0 1 fun _ => 0) :=
    ⟨_, by rw [sent_pushOfBytes]; rfl, rfl⟩
  rw [← List.take_append_drop 4 pushOfBytes]
  exact enables_append.mpr ⟨hfront, hdeliver, trivial⟩

theorem starts_twoWired : twoWired.threads.Starts ThreadedNetwork.twoNames :=
  ⟨fun _ => rfl, fun _ => rfl, fun _ => rfl, fun _ => rfl, rfl⟩

/-- A price of 100 survives. -/
theorem portable_pushOfBytes :
    (datagramSystem id .exact ThreadedNetwork.twoAddresses twoWired).Guarded (Portable id) twoWired
      pushOfBytes := by
  have hprice : hop id (100 : ℚ) = .ok 100 := by
    rw [hop_exact, wirePrice_eq_self (by norm_num) ⟨1000000, by norm_num, by norm_num⟩]
  exact ⟨⟨⟨hprice, by decide⟩, by decide⟩, trivial, trivial, trivial, trivial, trivial⟩

theorem exists_run_of_messages_pushOfBytes :
    ∃ ls', (threadSystem .exact ThreadedNetwork.twoAddresses twoWired.threads).Enables
        twoWired.threads ls' ∧
      (∀ n, (((threadSystem .exact ThreadedNetwork.twoAddresses twoWired.threads).run
        twoWired.threads ls').nodes n).Matches
          (((datagramSystem id .exact ThreadedNetwork.twoAddresses twoWired).run twoWired
            pushOfBytes).nodes n)) ∧
      let calls := (threadSystem .exact ThreadedNetwork.twoAddresses twoWired.threads).emitted
        (ThreadedNetwork.calls ThreadedNetwork.twoNames) twoWired.threads ls'
      (clientSystem ℚ).Enables Cluster.init calls ∧
        ∀ n, (((clientSystem ℚ).run Cluster.init calls).replicas
          (ThreadedNetwork.twoNames n)).Matches
            (((datagramSystem id .exact ThreadedNetwork.twoAddresses twoWired).run twoWired
              pushOfBytes).nodes n).engine.crdtBook :=
  exists_run_of_messages id .exact ThreadedNetwork.twoAddresses
    ThreadedNetwork.injective_twoNames starts_twoWired rfl enables_pushOfBytes
    portable_pushOfBytes

end WireNetwork

end Convergence
