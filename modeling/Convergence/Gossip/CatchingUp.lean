import Convergence.Gossip.CausalGossip

/-!
# Nodes catch up

While the clients are silent, gossip makes the replicas agree. It is enough that every node tells
every other one once what it has logged, in the push of a round or by answering a request, that what
is sent in the silence arrives, and that the receiving threads finish what they have in hand.
Whatever else the threads and the network do in between does no harm.

What a node tells another one goes through stages, the first of which may be left out: the request
is in hand, the answer is looked up, it is sent, it is in hand, it is logged. A step moves an
operation on, or leaves it at its stage.

## Main definitions

* `EngineThreads.ReceiverMoves`: what a step does to a receiving thread.
* `ThreadedNetwork.Informs`, `ThreadedNetwork.CatchUp`: a silence in which everybody is informed.
* `ThreadedNetwork.OnItsWay`: the stages of an operation.

## Main results

* `ThreadedNetwork.OnItsWay.step`, `ThreadedNetwork.OnItsWay.mem_opLog_run`.
* `ThreadedNetwork.agree_of_catchUp`.
-/

namespace Convergence

open TransitionSystem VectorTime

/-! ### Receiving threads -/

/-- What a step does to the receiving thread. -/
inductive EngineThreads.ReceiverMoves (s : EngineThreads) : ThreadAction → ReceiveThread → Prop
  | keeps (action : ThreadAction) : ReceiverMoves s action s.receiver
  | receives (r : Receipt) (h : s.receiver = .waiting) :
      ReceiverMoves s (.receive r) (.handling r.msg r.senderHost r.senderPort r.msg.toApply)
  | applies {msg : Message} {host : Str} {port : ℕ} {op : Operation ℚ} {rest : List (Operation ℚ)}
      (h : s.receiver = .handling msg host port (op :: rest)) :
      ReceiverMoves s .applyNext (.handling msg host port rest)
  | answers {msg : Message} {host : Str} {port : ℕ} {r : MessageType × List (Operation ℚ)}
      (h : s.receiver = .handling msg host port []) (hr : s.engine.response msg = some r) :
      ReceiverMoves s .lookUp (.answering r.1 r.2 host port)
  | ignores {msg : Message} {host : Str} {port : ℕ} (h : s.receiver = .handling msg host port [])
      (hr : s.engine.response msg = none) : ReceiverMoves s .lookUp .waiting
  | sends {type : MessageType} {ops : List (Operation ℚ)} {host : Str} {port : ℕ}
      (h : s.receiver = .answering type ops host port) : ReceiverMoves s .sendAnswer .waiting

theorem EngineThreads.receiverMoves (φ : GoldenRatio) (s : EngineThreads) {action : ThreadAction}
    (h : s.CanTake action) : s.ReceiverMoves action (s.step φ action).1.receiver := by
  cases action with
  | receive r => exact .receives r h
  | applyNext =>
    obtain ⟨msg, host, port, op, rest, heq⟩ := h
    simp only [step, heq]
    exact .applies heq
  | lookUp =>
    obtain ⟨msg, host, port, heq⟩ := h
    simp only [step, heq]
    cases hr : s.engine.response msg with
    | none => exact .ignores heq hr
    | some r => exact .answers heq hr
  | sendAnswer =>
    obtain ⟨type, ops, host, port, heq⟩ := h
    simp only [step, heq]
    exact .sends heq
  | readClock =>
    simp only [step]
    split <;> exact .keeps _
  | sendRound =>
    simp only [step]
    split <;> exact .keeps _
  | sendHeartbeat =>
    simp only [step]
    split <;> exact .keeps _
  | choosePeer => exact .keeps _
  | chooseHeartbeat => exact .keeps _
  | checkLiveness => exact .keeps _
  | client => exact .keeps _

/-- The messages that are answered with all operations that the clock does not cover. -/
def Message.IsRequest (msg : Message) : Prop := msg.type = .gossipPull ∨ msg.type = .antiEntropyReq

theorem Message.IsRequest.toApply_eq {msg : Message} (h : msg.IsRequest) : msg.toApply = [] := by
  refine if_neg ?_
  rcases h with h | h <;> rw [h] <;> decide

/-- The operations of a message of this type are applied. -/
def MessageType.Brings (type : MessageType) : Prop :=
  type = .gossipPush ∨ type = .gossipPushPull ∨ type = .antiEntropyRes

theorem Message.toApply_of_brings {msg : Message} (h : msg.type.Brings) :
    msg.toApply = msg.operations := if_pos h

/-- What answers a request has all that is asked for, and no answer means that this is nothing. -/
theorem GossipEngine.response_of_request (e : GossipEngine) {msg : Message} (h : msg.IsRequest) :
    e.response msg = none ∧ e.crdtBook.getOperationsSince msg.senderClock = [] ∨
      ∃ type, type.Brings ∧
        e.response msg = some (type, e.crdtBook.getOperationsSince msg.senderClock) := by
  have hne : msg.type ≠ .gossipPushPull := by
    rcases h with h | h <;> rw [h] <;> decide
  rw [response, if_neg hne]
  split_ifs with hpull hnil hreq
  · exact Or.inl ⟨rfl, hnil⟩
  · exact Or.inr ⟨_, Or.inl rfl, rfl⟩
  · exact Or.inr ⟨_, Or.inr (Or.inr rfl), rfl⟩
  · exact absurd h (not_or.mpr ⟨hpull, hreq⟩)

/-- A round that does not pull pushes the end of the log. -/
theorem GossipEngine.roundMessage_of_ne {e : GossipEngine} {mode : SyncMode}
    (h : (e.roundMessage mode).type ≠ .gossipPull) : (e.roundMessage mode).type.Brings ∧
      (e.roundMessage mode).operations =
        e.crdtBook.opLog.drop (e.crdtBook.opLog.length - 20) := by
  rw [roundMessage] at h ⊢
  split_ifs at h ⊢
  · exact absurd rfl h
  · exact ⟨Or.inl rfl, rfl⟩
  · exact ⟨Or.inr (Or.inl rfl), rfl⟩

/-! ### Clusters -/

namespace Cluster

variable {c : Cluster ℚ} {n : Str} {op : Operation ℚ}

/-- An operation that has been applied is in the log. -/
theorem Inv.mem_opLog_applyRemoteOperation (h : c.Inv) (hop : Created c.history op) (n : Str) :
    op ∈ ((c.replicas n).applyRemoteOperation op).1.opLog := by
  by_cases hseen : op.opId ∈ (c.replicas n).seenOps
  · rw [CRDTOrderBook.applyRemoteOperation_of_seen hseen]
    exact (h.log_iff n op).mpr ((h.seen_iff_known hop).mp hseen)
  · rw [CRDTOrderBook.opLog_applyRemoteOperation hseen]
    exact List.mem_append_right _ List.mem_cons_self

theorem mem_history_run {e : Event Str (Operation ℚ)} (he : e ∈ c.history)
    (ls : List (Str × Call ℚ)) : e ∈ ((clientSystem ℚ).run c ls).history := by
  induction ls generalizing c with
  | nil => exact he
  | cons l ls ih => exact ih (mem_history_step he l)

end Cluster

/-- A client sends a market order. -/
def ThreadTurn.IsMarketOrder {N : Type*} : ThreadTurn N → Prop
  | .act _ (.client (.marketOrder ..)) => True
  | _ => False

namespace ThreadedNetwork

variable {N : Type*} [DecidableEq N] {id : N → Str} {a : Addressing N} {φ : GoldenRatio}
  {s s₀ : ThreadedNetwork N} {κ κ' : Cluster ℚ} {i j n : N} {x : Operation ℚ} {l : ThreadTurn N}
  {ls : List (ThreadTurn N)}

/-! ### Steps and what they keep -/

/-- Every step is taken by a thread of some node, which has received a packet or acts on its own. -/
theorem exists_act (φ : GoldenRatio) (a : Addressing N) (h : s.CanTake l) :
    ∃ n action, (s.nodes n).CanTake action ∧
      s.step φ a l = s.afterStep a n ((s.nodes n).step φ action) ∧
        ((∃ p ∈ s.sent, ∃ now, p.dst = n ∧ action = .receive (receipt p now)) ∨
          l = .act n action) := by
  cases l with
  | act n action =>
    refine ⟨n, action, ?_, rfl, Or.inr rfl⟩
    cases action with
    | receive => exact h.elim
    | client => exact ClientMay.isLocal h
    | _ => exact h
  | deliver k now =>
    obtain ⟨p, hp, hwaiting⟩ := h
    exact ⟨p.dst, .receive (receipt p now), hwaiting, by simp only [step, hp],
      Or.inl ⟨p, List.mem_of_getElem? hp, now, rfl, rfl⟩⟩

/-- What has been sent stays available. -/
theorem sent_step (φ : GoldenRatio) (a : Addressing N) (s : ThreadedNetwork N) (l : ThreadTurn N) :
    s.sent <+: (s.step φ a l).sent := by
  cases l with
  | act n action => exact List.prefix_append ..
  | deliver k now =>
    rw [step]
    split
    · exact List.prefix_rfl
    · exact List.prefix_append ..

theorem sent_run (φ : GoldenRatio) (a : Addressing N) (s₀ s : ThreadedNetwork N)
    (ls : List (ThreadTurn N)) :
    s.sent <+: ((threadSystem φ a s₀).run s ls).sent := by
  induction ls generalizing s with
  | nil => exact List.prefix_rfl
  | cons l ls ih => exact (sent_step φ a s l).trans (ih _)

omit [DecidableEq N] in
/-- What a replica has logged it has logged later on. -/
theorem Represents.mem_opLog {s' : ThreadedNetwork N} (h : s.Represents id κ)
    (h' : s'.Represents id κ') (hgrows : ∀ e ∈ κ.history, e ∈ κ'.history)
    (hx : x ∈ (s.replica n).opLog) : x ∈ (s'.replica n).opLog := by
  rw [← h'.replica n]
  rw [← h.replica n] at hx
  exact (h'.inv.log_iff (id n) x).mpr
    (((h.inv.log_iff (id n) x).mp hx).imp (hgrows _) (hgrows _))

omit [DecidableEq N] in
theorem Represents.exists_mem_opLog (h : s.Represents id κ) (hx : Created κ.history x) :
    ∃ n, x ∈ (s.replica n).opLog := by
  obtain ⟨y, hy⟩ := h.inv.causal.mem_of_created hx
  by_contra! hnone
  exact h.forall_opLog (p := (· ≠ x)) (fun n op hop heq => hnone n (heq ▸ hop)) y x hy rfl

/-- In a step that no client takes, operations reach logs from other logs. -/
theorem exists_mem_opLog_of_step (h : s.Represents id κ) (hl : s.CanTake l)
    (hsilent : ∀ n call, l ≠ .act n (.client call))
    (hx : x ∈ ((s.step φ a l).replica n).opLog) : ∃ m, x ∈ (s.replica m).opLog := by
  obtain ⟨m, action, -, hstep, hlabel⟩ := exists_act φ a hl
  rw [hstep, replica] at hx
  by_cases hm : n = m
  · subst hm
    rw [nodes_afterStep_self, EngineThreads.crdtBook_step] at hx
    rcases (s.nodes n).calls_cases action with hcalls | ⟨call, haction, -⟩ |
      ⟨_, _, _, op, _, -, hreceiver, hcalls⟩
    · rw [hcalls] at hx
      exact ⟨n, hx⟩
    · obtain ⟨_, _, _, _, hreceive⟩ | hl := hlabel
      · cases haction.symm.trans hreceive
      · exact absurd (haction ▸ hl) (hsilent n call)
    · rw [hcalls, List.foldl_cons, List.foldl_nil, Call.run] at hx
      by_cases hseen : op.opId ∈ (s.nodes n).engine.crdtBook.seenOps
      · rw [CRDTOrderBook.applyRemoteOperation_of_seen hseen] at hx
        exact ⟨n, hx⟩
      · rw [CRDTOrderBook.opLog_applyRemoteOperation hseen] at hx
        rcases List.mem_append.mp hx with hx | hx
        · exact ⟨n, hx⟩
        · obtain rfl := List.mem_singleton.mp hx
          refine h.exists_mem_opLog (h.receivers n x ?_)
          rw [hreceiver]
          exact List.mem_cons_self
  · rw [nodes_afterStep_of_ne hm] at hx
    exact ⟨n, hx⟩

/-! ### Silences -/

/-- The node `j` tells the node `i` what it has logged: it sends the push of a round to `i`, or it
receives a request of `i`. -/
def Informs (a : Addressing N) (i j : N) (s : ThreadedNetwork N) : ThreadTurn N → Prop
  | .act n .sendRound => n = j ∧ ∃ host port mode clock,
      (s.nodes j).gossip = .clocked host port mode clock ∧ a.route host port = some i ∧
        ((s.nodes j).engine.roundMessage mode).type ≠ .gossipPull
  | .deliver k _ => ∃ p, s.sent[k]? = some p ∧ p.dst = j ∧ p.senderHost = a.host i ∧
      p.senderPort = a.port i ∧ p.msg.IsRequest
  | _ => False

/-- The packets from the place `m` on arrive. -/
def Delivers (φ : GoldenRatio) (a : Addressing N) (s : ThreadedNetwork N)
    (ls : List (ThreadTurn N)) (m : ℕ) : Prop :=
  ∀ k, m ≤ k → k < ((threadSystem φ a s).run s ls).sent.length → ∃ now, .deliver k now ∈ ls

/-- The clients are silent, every node informs every other one, what is sent arrives, and the
receiving threads finish. -/
structure CatchUp (φ : GoldenRatio) (a : Addressing N) (s : ThreadedNetwork N)
    (ls : List (ThreadTurn N)) : Prop where
  silent : ∀ n call, .act n (.client call) ∉ ls
  informed : ∀ i j, i ≠ j → ∃ before l after, ls = before ++ l :: after ∧
    ((threadSystem φ a s).run s before).Informs a i j l
  delivered : Delivers φ a s ls s.sent.length
  finished : ∀ n, (((threadSystem φ a s).run s ls).nodes n).receiver = .waiting

/-- A packet that has not been sent yet arrives later. -/
theorem Delivers.tail {m : ℕ} (h : Delivers φ a s (l :: ls) m) (hl : s.CanTake l)
    (hm : s.sent.length ≤ m) : Delivers φ a (s.step φ a l) ls m := by
  intro k hk hlt
  obtain ⟨now, hmem⟩ := h k hk hlt
  rcases List.mem_cons.mp hmem with rfl | hmem
  · obtain ⟨p, hp, -⟩ := hl
    have hsent := (List.getElem?_eq_some_iff.mp hp).1
    omega
  · exact ⟨now, hmem⟩

/-- The operation `x` is on its way from the node `j` to the node `i`, where it arrives when the
steps `ls` are taken, or it has reached it. -/
inductive OnItsWay (a : Addressing N) (i j : N) (x : Operation ℚ) (s : ThreadedNetwork N)
    (ls : List (ThreadTurn N)) : Prop
  | logged (h : x ∈ (s.replica i).opLog)
  | asked (msg : Message) (h : (s.nodes j).receiver = .handling msg (a.host i) (a.port i) [])
      (hmsg : msg.IsRequest) (hx : x ∈ (s.replica j).opLog)
  | answered (type : MessageType) (ops : List (Operation ℚ))
      (h : (s.nodes j).receiver = .answering type ops (a.host i) (a.port i)) (htype : type.Brings)
      (hx : x ∈ ops)
  | sent (k now : ℕ) (p : Packet N) (h : s.sent[k]? = some p) (hdst : p.dst = i)
      (hx : x ∈ p.msg.toApply) (hls : .deliver k now ∈ ls)
  | inHand (msg : Message) (host : Str) (port : ℕ) (rest : List (Operation ℚ))
      (h : (s.nodes i).receiver = .handling msg host port rest) (hx : x ∈ rest)

/-! ### One step -/

/-- The packet that a step of the node `n` sends. -/
theorem getElem?_sent_afterStep {r : EngineThreads × List Datagram} {d : Datagram}
    (hr : r.2 = [d]) (hroute : a.route d.host d.port = some i) :
    (s.afterStep a n r).sent[s.sent.length]? =
      some ⟨some n, i, d.msg, a.host n, a.port n⟩ := by
  rw [afterStep, hr, List.getElem?_append_right le_rfl, Nat.sub_self]
  simp [Addressing.packets, hroute]

/-- A packet that a step has sent arrives. -/
theorem OnItsWay.of_sent {p : Packet N} (hl : s.CanTake l)
    (hdel : Delivers φ a s (l :: ls) s.sent.length)
    (hp : (s.step φ a l).sent[s.sent.length]? = some p) (hdst : p.dst = i)
    (hx : x ∈ p.msg.toApply) : OnItsWay a i j x (s.step φ a l) ls := by
  have hlt := (List.getElem?_eq_some_iff.mp hp).1
  obtain ⟨now, hnow⟩ := hdel.tail hl le_rfl s.sent.length le_rfl
    (hlt.trans_le (sent_run φ a (s.step φ a l) _ ls).length_le)
  exact .sent _ now p hp hdst hx hnow

omit [DecidableEq N] in
/-- What a node has not logged yet, the answer to its request has. -/
theorem Sound.mem_opLog_or_mem (ha : a.Returns) (h : s.Sound id a κ) {msg : Message}
    {rest : List (Operation ℚ)}
    (hreceiver : (s.nodes j).receiver = .handling msg (a.host i) (a.port i) rest)
    (hx : x ∈ (s.replica j).opLog) : x ∈ (s.replica i).opLog ∨
      x ∈ (s.nodes j).engine.crdtBook.getOperationsSince msg.senderClock := by
  have hr := h.receiver j
  rw [hreceiver] at hr
  obtain ⟨i', hhost, hport, hclock⟩ := hr.1
  obtain rfl : i = i' := by
    have hroute := ha i
    rw [hhost, hport, ha i'] at hroute
    exact (Option.some.inj hroute).symm
  have hlog := h.logs.known_or_mem (n := id j) hclock (h.replica j ▸ hx)
  rw [h.replica j] at hlog
  refine hlog.imp_left fun hknown => ?_
  rw [← h.replica i]
  exact (h.inv.log_iff (id i) x).mpr hknown

section Stages

variable (h : s.Sound id a κ) (h' : (s.step φ a l).Sound id a κ')
  (hgrows : ∀ e ∈ κ.history, e ∈ κ'.history) {action : ThreadAction}
  (haction : (s.nodes n).CanTake action)
  (hstep : s.step φ a l = s.afterStep a n ((s.nodes n).step φ action))

include h h' hgrows

theorem mem_opLog_step (hx : x ∈ (s.replica i).opLog) : x ∈ ((s.step φ a l).replica i).opLog :=
  h.toRepresents.mem_opLog h'.toRepresents hgrows hx

include haction hstep

/-- The node that has a request in hand takes a step. -/
theorem OnItsWay.step_asked (ha : a.Returns) {msg : Message}
    (hreceiver : (s.nodes n).receiver = .handling msg (a.host i) (a.port i) [])
    (hmsg : msg.IsRequest) (hx : x ∈ (s.replica n).opLog) :
    OnItsWay a i n x (s.step φ a l) ls := by
  have hkeep {m : N} (hx : x ∈ (s.replica m).opLog) : x ∈ ((s.step φ a l).replica m).opLog :=
    mem_opLog_step h h' hgrows hx
  have hself : ((s.step φ a l).nodes n).receiver = ((s.nodes n).step φ action).1.receiver := by
    rw [hstep, nodes_afterStep_self]
  have hmoves := (s.nodes n).receiverMoves φ haction
  generalize ((s.nodes n).step φ action).1.receiver = t at hmoves hself
  cases hmoves with
  | keeps => exact .asked msg (hself.trans hreceiver) hmsg (hkeep hx)
  | receives r heq => cases hreceiver.symm.trans heq
  | applies heq => cases hreceiver.symm.trans heq
  | sends heq => cases hreceiver.symm.trans heq
  | answers heq hr =>
    cases hreceiver.symm.trans heq
    rcases h.mem_opLog_or_mem ha hreceiver hx with hi | hmem
    · exact .logged (hkeep hi)
    · rcases (s.nodes n).engine.response_of_request hmsg with ⟨hnone, -⟩ | ⟨type, htype, hsome⟩
      · cases hnone.symm.trans hr
      · obtain rfl := Option.some.inj (hsome.symm.trans hr)
        exact .answered type _ hself htype hmem
  | ignores heq hr =>
    cases hreceiver.symm.trans heq
    rcases h.mem_opLog_or_mem ha hreceiver hx with hi | hmem
    · exact .logged (hkeep hi)
    · rcases (s.nodes n).engine.response_of_request hmsg with ⟨-, hnil⟩ | ⟨type, -, hsome⟩
      · rw [hnil] at hmem
        exact absurd hmem List.not_mem_nil
      · cases hsome.symm.trans hr

omit h h' hgrows in
/-- The node that has an answer in hand takes a step. -/
theorem OnItsWay.step_answering (ha : a.Returns) (hl : s.CanTake l)
    (hdel : Delivers φ a s (l :: ls) s.sent.length) {type : MessageType}
    {ops : List (Operation ℚ)}
    (hreceiver : (s.nodes n).receiver = .answering type ops (a.host i) (a.port i))
    (htype : type.Brings) (hx : x ∈ ops) : OnItsWay a i n x (s.step φ a l) ls := by
  have hself : ((s.step φ a l).nodes n).receiver = ((s.nodes n).step φ action).1.receiver := by
    rw [hstep, nodes_afterStep_self]
  have hmoves := (s.nodes n).receiverMoves φ haction
  generalize ((s.nodes n).step φ action).1.receiver = t at hmoves hself
  cases hmoves with
  | keeps => exact .answered type ops (hself.trans hreceiver) htype hx
  | sends heq =>
    have hsent := getElem?_sent_afterStep (s := s) (n := n) (r := (s.nodes n).step φ .sendAnswer)
      (d := ⟨(s.nodes n).engine.message type ops, a.host i, a.port i⟩)
      (by simp only [EngineThreads.step, hreceiver]) (ha i)
    rw [← hstep] at hsent
    refine .of_sent hl hdel hsent rfl ?_
    rw [Message.toApply_of_brings htype]
    exact hx
  | receives r heq => cases hreceiver.symm.trans heq
  | applies heq => cases hreceiver.symm.trans heq
  | answers heq => cases hreceiver.symm.trans heq
  | ignores heq => cases hreceiver.symm.trans heq

omit h' hgrows in
/-- The node that has operations in hand takes a step. -/
theorem OnItsWay.step_inHand {msg : Message} {host : Str} {port : ℕ} {rest : List (Operation ℚ)}
    (hreceiver : (s.nodes n).receiver = .handling msg host port rest) (hx : x ∈ rest) :
    OnItsWay a n j x (s.step φ a l) ls := by
  have hself : ((s.step φ a l).nodes n).receiver = ((s.nodes n).step φ action).1.receiver := by
    rw [hstep, nodes_afterStep_self]
  have hmoves := (s.nodes n).receiverMoves φ haction
  generalize ((s.nodes n).step φ action).1.receiver = t at hmoves hself
  cases hmoves with
  | keeps => exact .inHand msg host port rest (hself.trans hreceiver) hx
  | receives r heq => cases hreceiver.symm.trans heq
  | sends heq => cases hreceiver.symm.trans heq
  | answers heq =>
    cases hreceiver.symm.trans heq
    cases hx
  | ignores heq =>
    cases hreceiver.symm.trans heq
    cases hx
  | @applies _ _ _ op rest heq =>
    cases hreceiver.symm.trans heq
    rcases List.mem_cons.mp hx with rfl | hx
    · have hcreated : Created κ.history x := by
        refine h.receivers n x ?_
        rw [hreceiver]
        exact List.mem_cons_self
      have happlied := h.inv.mem_opLog_applyRemoteOperation hcreated (id n)
      refine .logged ?_
      rw [hstep, replica, nodes_afterStep_self, EngineThreads.crdtBook_step, EngineThreads.calls,
        hreceiver]
      rwa [h.replica n] at happlied
    · exact .inHand msg host port rest hself hx

end Stages

/-- A step leaves an operation at its stage or moves it on. -/
theorem OnItsWay.step (ha : a.Returns) (h : s.Sound id a κ) (h' : (s.step φ a l).Sound id a κ')
    (hgrows : ∀ e ∈ κ.history, e ∈ κ'.history) (hl : s.CanTake l)
    (hdel : Delivers φ a s (l :: ls) s.sent.length) (hway : OnItsWay a i j x s (l :: ls)) :
    OnItsWay a i j x (s.step φ a l) ls := by
  obtain ⟨n, action, haction, hstep, -⟩ := exists_act φ a hl
  have hother {m : N} (hm : m ≠ n) : (s.step φ a l).nodes m = s.nodes m := by
    rw [hstep, nodes_afterStep_of_ne hm]
  cases hway with
  | logged hx => exact .logged (mem_opLog_step h h' hgrows hx)
  | asked msg hreceiver hmsg hx =>
    by_cases hj : j = n
    · subst hj
      exact step_asked h h' hgrows haction hstep ha hreceiver hmsg hx
    · exact .asked msg (hother hj ▸ hreceiver) hmsg (mem_opLog_step h h' hgrows hx)
  | answered type ops hreceiver htype hx =>
    by_cases hj : j = n
    · subst hj
      exact step_answering haction hstep ha hl hdel hreceiver htype hx
    · exact .answered type ops (hother hj ▸ hreceiver) htype hx
  | sent k now p hp hdst hx hls =>
    rcases List.mem_cons.mp hls with rfl | hls
    · subst hdst
      refine .inHand p.msg p.senderHost p.senderPort _ ?_ hx
      simp only [ThreadedNetwork.step, hp, nodes_afterStep_self]
      rfl
    · obtain ⟨new, hnew⟩ := sent_step φ a s l
      refine .sent k now p ?_ hdst hx hls
      rw [← hnew, List.getElem?_append_left (List.getElem?_eq_some_iff.mp hp).1, hp]
  | inHand msg host port rest hreceiver hx =>
    by_cases hi : i = n
    · subst hi
      exact step_inHand h haction hstep hreceiver hx
    · exact .inHand msg host port rest (hother hi ▸ hreceiver) hx

/-- What a node tells another one is on its way. -/
theorem Informs.onItsWay (h : s.Sound id a κ)
    (h' : (s.step φ a l).Sound id a κ') (hgrows : ∀ e ∈ κ.history, e ∈ κ'.history)
    (hl : s.CanTake l) (hpush : s.PushesSuffice a l)
    (hdel : Delivers φ a s (l :: ls) s.sent.length) (hinforms : s.Informs a i j l)
    (hx : x ∈ (s.replica j).opLog) : OnItsWay a i j x (s.step φ a l) ls := by
  cases l with
  | deliver k now =>
    obtain ⟨p, hp, rfl, hhost, hport, hmsg⟩ := hinforms
    refine .asked p.msg ?_ hmsg (mem_opLog_step h h' hgrows hx)
    simp only [ThreadedNetwork.step, hp, nodes_afterStep_self]
    rw [← hhost, ← hport, ← hmsg.toApply_eq]
    rfl
  | act n action =>
    cases action with
    | sendRound =>
      obtain ⟨rfl, host, port, mode, clock, hgossip, hroute, htype⟩ := hinforms
      have hfront := (hpush host port mode clock i hgossip hroute).resolve_left htype
      obtain ⟨hbrings, hops⟩ := GossipEngine.roundMessage_of_ne htype
      rw [← List.take_append_drop ((s.replica n).opLog.length - 20) (s.replica n).opLog] at hx
      rcases List.mem_append.mp hx with hx | hx
      · -- The push leaves the operation out.
        have hcreated := h.created_of_mem (List.mem_of_mem_take hx)
        have hseen := hfront x hx
        rw [← h.replica i] at hseen
        have hlog := (h.inv.log_iff _ _).mpr ((h.inv.seen_iff_known hcreated).mp hseen)
        rw [h.replica i] at hlog
        exact .logged (mem_opLog_step h h' hgrows hlog)
      · have hsent := getElem?_sent_afterStep (s := s) (n := n) (r := (s.nodes n).step φ .sendRound)
          (d := ⟨{ (s.nodes n).engine.roundMessage mode with senderClock := clock }, host, port⟩)
          (by simp only [EngineThreads.step, hgossip]) hroute
        refine .of_sent hl hdel hsent rfl ?_
        rw [Message.toApply_of_brings (by exact hbrings)]
        exact hops ▸ hx
    | _ => exact hinforms.elim

/-! ### Runs -/

theorem Delivers.append {before : List (ThreadTurn N)}
    (h : Delivers φ a s (before ++ ls) s.sent.length)
    (hbefore : (threadSystem φ a s₀).Enables s before) :
    Delivers φ a ((threadSystem φ a s₀).run s before) ls
      ((threadSystem φ a s₀).run s before).sent.length := by
  induction before generalizing s with
  | nil => exact h
  | cons l before ih =>
    refine ih (fun k hk => ?_) hbefore.2
    exact h.tail hbefore.1 le_rfl k ((sent_step φ a s l).length_le.trans hk)

/-- What is on its way is logged at the end. -/
theorem OnItsWay.mem_opLog_run (hid : Function.Injective id) (ha : a.Returns)
    (h : s.Sound id a κ) (hls : (threadSystem φ a s₀).Enables s ls)
    (hpush : (threadSystem φ a s₀).Guarded (PushesSuffice a) s ls)
    (hdel : Delivers φ a s ls s.sent.length)
    (hend : ∀ n, (((threadSystem φ a s₀).run s ls).nodes n).receiver = .waiting)
    (hway : OnItsWay a i j x s ls) : x ∈ (((threadSystem φ a s₀).run s ls).replica i).opLog := by
  induction ls generalizing s κ with
  | nil =>
    cases hway with
    | logged hx => exact hx
    | asked _ hreceiver => cases hreceiver.symm.trans (hend j)
    | answered _ _ hreceiver => cases hreceiver.symm.trans (hend j)
    | sent _ _ _ _ _ _ hls => cases hls
    | inHand _ _ _ _ hreceiver => cases hreceiver.symm.trans (hend i)
  | cons l ls ih =>
    have h' := (refines_causal hid ha s₀).related s κ l h ⟨hls.1, hpush.1⟩
    refine ih h' hls.2 hpush.2 (fun k hk => ?_) hend ?_
    · exact hdel.tail hls.1 le_rfl k ((sent_step φ a s l).length_le.trans hk)
    · exact hway.step ha h h' (fun e he => Cluster.mem_history_run he _) hls.1 hdel

/-- In a silence, operations reach logs from other logs. -/
theorem exists_mem_opLog_of_run (hid : Function.Injective id) (h : s.Represents id κ)
    (hls : (threadSystem φ a s₀).Enables s ls) (hsilent : ∀ n call, .act n (.client call) ∉ ls)
    (hx : x ∈ (((threadSystem φ a s₀).run s ls).replica n).opLog) :
    ∃ m, x ∈ (s.replica m).opLog := by
  induction ls generalizing s κ with
  | nil => exact ⟨n, hx⟩
  | cons l ls ih =>
    have h' := (refines hid s₀).related s κ l h hls.1
    obtain ⟨m, hm⟩ := ih h' hls.2 (fun n call hmem => hsilent n call (List.mem_cons_of_mem _ hmem))
      hx
    exact exists_mem_opLog_of_step h hls.1
      (fun n call heq => hsilent n call (heq ▸ List.mem_cons_self)) hm

/-- After a silence in which everybody is informed, every log has the operations of all. -/
theorem CatchUp.mem_opLog (hid : Function.Injective id) (ha : a.Returns) (h : s.Sound id a κ)
    (hls : (threadSystem φ a s₀).Enables s ls)
    (hpush : (threadSystem φ a s₀).Guarded (PushesSuffice a) s ls) (hphase : CatchUp φ a s ls)
    (hx : x ∈ (((threadSystem φ a s₀).run s ls).replica n).opLog) (m : N) :
    x ∈ (((threadSystem φ a s₀).run s ls).replica m).opLog := by
  have hgrows {before : List (ThreadTurn N)} (hls : (threadSystem φ a s₀).Enables s before)
      (hpush : (threadSystem φ a s₀).Guarded (PushesSuffice a) s before) {o : N}
      (hx : x ∈ (s.replica o).opLog) :
      x ∈ (((threadSystem φ a s₀).run s before).replica o).opLog := by
    obtain ⟨-, h'⟩ := (refines_causal hid ha s₀).run h (enables_restrict.mpr ⟨hls, hpush⟩)
    exact h.toRepresents.mem_opLog h'.toRepresents (fun e he => Cluster.mem_history_run he _) hx
  obtain ⟨o, ho⟩ := exists_mem_opLog_of_run hid h.toRepresents hls hphase.silent hx
  by_cases hm : m = o
  · exact hm ▸ hgrows hls hpush ho
  · obtain ⟨before, l, after, rfl, hinforms⟩ := hphase.informed m o hm
    obtain ⟨hbefore, hl, hafter⟩ := enables_append.mp hls
    obtain ⟨hpushBefore, hpushOne, hpushAfter⟩ := guarded_append.mp hpush
    obtain ⟨-, hsound⟩ := (refines_causal hid ha s₀).run h
      (enables_restrict.mpr ⟨hbefore, hpushBefore⟩)
    have hnext := (refines_causal hid ha s₀).related _ _ l hsound ⟨hl, hpushOne⟩
    have hdel := hphase.delivered.append hbefore
    have hway := hinforms.onItsWay hsound hnext (fun e he => Cluster.mem_history_run he _) hl
      hpushOne hdel (hgrows hbefore hpushBefore ho)
    have hend := hphase.finished
    rw [run_append, run_cons] at hend ⊢
    refine hway.mem_opLog_run hid ha hnext hafter hpushAfter (fun k hk => ?_) hend
    exact hdel.tail hl le_rfl k ((sent_step φ a _ l).length_le.trans hk)

/-! ### Books -/

omit [DecidableEq N] in
/-- Without market orders the cluster has none. -/
theorem withoutMatching_calls (hl : ¬ l.IsMarketOrder) :
    (clientSystem ℚ).Guarded Cluster.WithoutMatching κ (calls id s l) := by
  cases l with
  | deliver k now => trivial
  | act n action =>
    rw [calls]
    rcases (s.nodes n).calls_cases action with hcalls | ⟨call, rfl, hcalls⟩ |
      ⟨_, _, _, op, _, -, -, hcalls⟩
    · rw [hcalls]
      trivial
    · rw [hcalls]
      refine ⟨?_, trivial⟩
      cases call with
      | marketOrder => exact hl trivial
      | _ => trivial
    · rw [hcalls]
      exact ⟨trivial, trivial⟩

/-- A run without market orders is a run of a cluster whose books are replays of the logs. -/
theorem limitInv_of_enables (hid : Function.Injective id) (h₀ : s₀.Starts id)
    (h : (threadSystem φ a s₀).Enables s₀ ls) (hlimit : ∀ l ∈ ls, ¬ l.IsMarketOrder) :
    ((clientSystem ℚ).run Cluster.init
      ((threadSystem φ a s₀).emitted (calls id) s₀ ls)).LimitInv := by
  have hguard : (threadSystem φ a s₀).Guarded (fun _ l => ¬ l.IsMarketOrder) s₀ ls :=
    guarded_iff_forall.mpr fun before l hle => hlimit l (hle.subset (by simp))
  have hcalls := ((refines hid s₀).run h₀.represents h).1
  have hmatching : (clientSystem ℚ).Guarded Cluster.WithoutMatching Cluster.init
      ((threadSystem φ a s₀).emitted (calls id) s₀ ls) :=
    (refines hid s₀).guarded (fun _ _ _ _ _ hl => withoutMatching_calls hl) h₀.represents h hguard
  have henables : (limitOrderSystem ℚ).Enables Cluster.init
      ((threadSystem φ a s₀).emitted (calls id) s₀ ls) :=
    enables_restrict.mpr ⟨hcalls, hmatching⟩
  exact henables.run_invariant .init fun c l hc hl => hc.step l hl

/-- All logs have the same operations; and if no market order was sent, all replicas show the same
orders and levels, namely the orders that are added and not cancelled. -/
structure Agreed (s : ThreadedNetwork N) (before : List (ThreadTurn N)) : Prop where
  logs : ∀ n m op, op ∈ (s.replica n).opLog ↔ op ∈ (s.replica m).opLog
  books : (∀ l ∈ before, ¬ l.IsMarketOrder) → ∀ n, (∀ m, (s.replica n).SameView (s.replica m)) ∧
    (s.replica n).book.activeOrders = referenceOrders (s.replica n).opLog.toFinset

/-- **Nodes catch up.** When the receivers of pushes have what the pushes leave out, the replicas
agree after a silence in which every node informs every other one, what is sent arrives and the
receiving threads finish. -/
theorem agree_of_catchUp (φ : GoldenRatio) (hid : Function.Injective id) (ha : a.Returns)
    (h₀ : s₀.Starts id) {before phase : List (ThreadTurn N)}
    (h : (threadSystem φ a s₀).Enables s₀ (before ++ phase))
    (hpush : (threadSystem φ a s₀).Guarded (PushesSuffice a) s₀ (before ++ phase))
    (hphase : CatchUp φ a ((threadSystem φ a s₀).run s₀ before) phase) :
    Agreed ((threadSystem φ a s₀).run s₀ (before ++ phase)) before := by
  set s := (threadSystem φ a s₀).run s₀ (before ++ phase) with hs
  obtain ⟨hbefore, hafter⟩ := enables_append.mp h
  obtain ⟨hpushBefore, hpushAfter⟩ := guarded_append.mp hpush
  have hstart := (sound_of_pushesSuffice hid ha h₀ hbefore hpushBefore).2
  have hlog (n m : N) (op : Operation ℚ) (hop : op ∈ (s.replica n).opLog) :
      op ∈ (s.replica m).opLog := by
    rw [hs, run_append] at hop ⊢
    exact hphase.mem_opLog hid ha hstart hafter hpushAfter hop m
  refine ⟨fun n m op => ⟨hlog n m op, hlog m n op⟩, fun hlimit n => ?_⟩
  have hend := (sound_of_pushesSuffice hid ha h₀ h hpush).2
  have hinv := limitInv_of_enables hid h₀ h fun l hl => by
    rcases List.mem_append.mp hl with hl | hl
    · exact hlimit l hl
    · intro hmarket
      cases l with
      | deliver => exact hmarket
      | act n action =>
        cases action with
        | client call => exact hphase.silent n call hl
        | _ => exact hmarket
  have hfollow := hinv.booksFollowLogs_iff.mpr
    ((Cluster.cancellationsHold_iff hend.inv).mpr hend.logs.cancellations)
  refine ⟨fun m => ?_, ?_⟩
  · rw [← hend.replica n, ← hend.replica m]
    refine Cluster.sameView_of_log hinv hfollow fun op => ?_
    rw [hend.replica n, hend.replica m]
    exact ⟨hlog n m op, hlog m n op⟩
  · rw [← hend.replica n]
    exact hfollow (id n)

end ThreadedNetwork

end Convergence
