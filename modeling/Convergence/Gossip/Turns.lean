import Convergence.Gossip.ThreadRefinement

/-!
# Whole turns are interleavings

When a gossip round, a heartbeat or the handling of a message is one step, as in `networkSystem`,
the threads take the critical sections of the turn one after the other with nothing in between. So
every run of whole turns is one of the runs of the threads, with the same engines at the end, and
the datagrams in flight are among those sent.

## Main definitions

* `EngineThreads.run`, `EngineThreads.Takes`: critical sections of one node in a row.
* `Network.threads`, `Network.AtRest`: a network of engines as one of threads.

## Main results

* `GossipEngine.reply_eq`: the `switch` of `handle_message`, in the order of the critical sections.
* `Network.simulates`, `Network.exists_interleaving`.
-/

namespace Convergence

open TransitionSystem

/-! ### Critical sections in a row -/

/-- The critical section belongs to a loop of the engine. -/
def ThreadAction.IsOwn : ThreadAction → Prop
  | receive _ => False
  | client _ => False
  | _ => True

namespace EngineThreads

variable {φ : GoldenRatio} {s : EngineThreads}

/-- A node after some critical sections, and what they send. -/
def run (φ : GoldenRatio) : EngineThreads → List ThreadAction → EngineThreads × List Datagram
  | s, [] => (s, [])
  | s, action :: actions =>
    let next := s.step φ action
    let rest := run φ next.1 actions
    (rest.1, next.2 ++ rest.2)

/-- The threads of the engine can take these critical sections. -/
def Takes (φ : GoldenRatio) : EngineThreads → List ThreadAction → Prop
  | _, [] => True
  | s, action :: actions =>
    (action.IsOwn ∧ s.CanTake action) ∧ Takes φ (s.step φ action).1 actions

theorem run_append (s : EngineThreads) (xs ys : List ThreadAction) :
    s.run φ (xs ++ ys) =
      (((s.run φ xs).1.run φ ys).1, (s.run φ xs).2 ++ ((s.run φ xs).1.run φ ys).2) := by
  induction xs generalizing s with
  | nil => rfl
  | cons x xs ih =>
    rw [List.cons_append, run, run, ih]
    simp only [List.append_assoc]

theorem takes_append {xs ys : List ThreadAction} :
    s.Takes φ (xs ++ ys) ↔ s.Takes φ xs ∧ (s.run φ xs).1.Takes φ ys := by
  induction xs generalizing s with
  | nil => simp [Takes, run]
  | cons x xs ih => exact (and_congr_right' ih).trans and_assoc.symm

theorem Takes.isOwn {actions : List ThreadAction} (h : s.Takes φ actions) :
    ∀ action ∈ actions, action.IsOwn := by
  induction actions generalizing s with
  | nil => exact fun _ hmem => absurd hmem List.not_mem_nil
  | cons x actions ih =>
    intro action hmem
    rcases List.mem_cons.mp hmem with rfl | hmem
    exacts [h.1.1, ih h.2 action hmem]

/-- The loop over the operations of a message. -/
theorem applyAll (e : GossipEngine) (gossip : GossipThread) (msg : Message) (host : Str) (port : ℕ)
    (ops : List (Operation ℚ)) :
    let s : EngineThreads := ⟨e, gossip, .handling msg host port ops⟩
    let actions := ops.map fun _ => ThreadAction.applyNext
    s.Takes φ actions ∧
      s.run φ actions = (⟨e.applyOperations ops, gossip, .handling msg host port []⟩, []) := by
  induction ops generalizing e with
  | nil => exact ⟨trivial, rfl⟩
  | cons op ops ih =>
    obtain ⟨htakes, hrun⟩ := ih { e with crdtBook := (e.crdtBook.applyRemoteOperation op).1 }
    refine ⟨⟨⟨trivial, msg, host, port, op, ops, rfl⟩, htakes⟩, ?_⟩
    rw [List.map_cons, run]
    exact Prod.ext (congrArg Prod.fst hrun) (congrArg Prod.snd hrun)

/-- What a receiving thread does with the message that it has in hand. -/
theorem exists_takes_handling (φ : GoldenRatio) (e : GossipEngine) (gossip : GossipThread)
    (msg : Message) (host : Str) (port : ℕ) (rest : List (Operation ℚ)) :
    let s : EngineThreads := ⟨e, gossip, .handling msg host port rest⟩
    let e' := e.applyOperations rest
    ∃ actions, s.Takes φ actions ∧ s.run φ actions = (⟨e', gossip, .waiting⟩,
      ((e'.response msg).map fun r => ⟨e'.message r.1 r.2, host, port⟩).toList) := by
  intro s e'
  obtain ⟨htakes, hrun⟩ := applyAll (φ := φ) e gossip msg host port rest
  cases hr : e'.response msg with
  | none =>
    refine ⟨rest.map (fun _ => .applyNext) ++ [.lookUp], takes_append.mpr ⟨htakes, ?_⟩, ?_⟩
    · rw [hrun]
      exact ⟨⟨trivial, msg, host, port, rfl⟩, trivial⟩
    · rw [run_append, hrun]
      simp [run, step, e', hr]
  | some r =>
    refine ⟨rest.map (fun _ => .applyNext) ++ [.lookUp, .sendAnswer],
      takes_append.mpr ⟨htakes, ?_⟩, ?_⟩
    · rw [hrun]
      refine ⟨⟨trivial, msg, host, port, rfl⟩, ⟨trivial, r.1, r.2, host, port, ?_⟩, trivial⟩
      simp only [step, e', hr, Option.map_some, Option.getD_some]
    · rw [run_append, hrun]
      simp [run, step, e', hr]

end EngineThreads

/-! ### Whole turns of one node -/

namespace GossipEngine

variable {φ : GoldenRatio} (e : GossipEngine)

/-- The messages are applied first, and what is asked for is looked up afterwards. -/
theorem reply_eq (msg : Message) :
    let e' := e.applyOperations msg.toApply
    e.reply msg = (e', ((e'.response msg).map fun r => e'.message r.1 r.2).toList) := by
  intro e'
  have hnil : e.applyOperations [] = e := rfl
  by_cases hpush : msg.type = .gossipPush
  · simp only [e', reply, response, Message.toApply, hpush]
    rfl
  by_cases hboth : msg.type = .gossipPushPull
  · have happly : msg.toApply = msg.operations := if_pos (Or.inr (Or.inl hboth))
    simp only [e', happly]
    rw [reply, if_neg hpush, if_pos hboth, response, if_pos hboth]
    simp only
    split_ifs <;> rfl
  by_cases hpull : msg.type = .gossipPull
  · have happly : msg.toApply = [] := if_neg (by rw [hpull]; decide)
    simp only [e', happly, hnil]
    rw [reply, if_neg hpush, if_neg hboth, if_pos hpull, response, if_neg hboth, if_pos hpull]
    simp only
    split_ifs <;> rfl
  by_cases hreq : msg.type = .antiEntropyReq
  · simp only [e', reply, response, Message.toApply, hreq]
    rfl
  by_cases hres : msg.type = .antiEntropyRes
  · simp only [e', reply, response, Message.toApply, hres]
    rfl
  · simp only [e', reply, response, Message.toApply, hpush, hboth, hpull, hreq, hres, if_false,
      or_self]
    rfl

/-- The engine, with its threads at their loops. -/
def atRest : EngineThreads := ⟨e, .idle, .waiting⟩

/-- From rest to rest in critical sections: the engine becomes `r.1` and sends `r.2`. -/
def Completes (φ : GoldenRatio) (r : GossipEngine × List Datagram) : Prop :=
  ∃ actions, e.atRest.Takes φ actions ∧ e.atRest.run φ actions = (r.1.atRest, r.2)

theorem roundMessage_clock (mode : SyncMode) :
    { e.roundMessage mode with senderClock := e.crdtBook.clock } = e.roundMessage mode := by
  rw [roundMessage]
  split_ifs <;> rfl

theorem completes_doGossipRound (choice : ℕ) : e.Completes φ (e.doGossipRound φ choice) := by
  cases hpeer : (e.selectPeer φ choice).2.1 with
  | none =>
    refine ⟨[.choosePeer choice], ⟨⟨trivial, rfl⟩, trivial⟩, ?_⟩
    simp [EngineThreads.run, EngineThreads.step, atRest, doGossipRound, hpeer]
  | some p =>
    refine ⟨[.choosePeer choice, .readClock, .sendRound], ⟨⟨trivial, rfl⟩, ⟨trivial, ?_⟩,
      ⟨trivial, ?_⟩, trivial⟩, ?_⟩
    · exact ⟨p.host, p.port, (e.selectPeer φ choice).2.2, by
        simp [EngineThreads.step, atRest, hpeer]⟩
    · exact ⟨p.host, p.port, (e.selectPeer φ choice).2.2, (e.selectPeer φ choice).1.crdtBook.clock,
        by simp [EngineThreads.step, atRest, hpeer]⟩
    · simp [EngineThreads.run, EngineThreads.step, atRest, doGossipRound, hpeer,
        roundMessage_clock]

theorem completes_heartbeat (choice : ℕ) : e.Completes φ (e, e.heartbeat choice) := by
  cases hpeer : selectRandomPeer e.peers choice with
  | none =>
    refine ⟨[.chooseHeartbeat choice], ⟨⟨trivial, rfl⟩, trivial⟩, ?_⟩
    simp [EngineThreads.run, EngineThreads.step, atRest, heartbeat, hpeer]
  | some p =>
    refine ⟨[.chooseHeartbeat choice, .sendHeartbeat], ⟨⟨trivial, rfl⟩, ⟨trivial, ?_⟩, trivial⟩, ?_⟩
    · exact ⟨p.host, p.port, by simp [EngineThreads.step, atRest, hpeer]⟩
    · simp [EngineThreads.run, EngineThreads.step, atRest, heartbeat, hpeer]

theorem completes_checkLiveness (now : ℕ) : e.Completes φ (e.checkLiveness now, []) :=
  ⟨[.checkLiveness now], ⟨⟨trivial, rfl⟩, trivial⟩, rfl⟩

/-- The critical sections that follow the one in which a message is received. -/
theorem exists_takes_handleMessage (msg : Message) (host : Str) (port now : ℕ) :
    let received := e.atRest.step φ (.receive ⟨msg, host, port, now⟩)
    ∃ actions, received.1.Takes φ actions ∧
      (received.1.run φ actions).1 = (e.handleMessage msg host port now).1.atRest ∧
        received.2 ++ (received.1.run φ actions).2 = (e.handleMessage msg host port now).2 := by
  intro received
  let e₁ : GossipEngine := { e with peers := (touchPeers msg.senderId host now e.peers).1 }
  let e₂ := e₁.applyOperations msg.toApply
  obtain ⟨actions, htakes, hrun⟩ := EngineThreads.exists_takes_handling φ e₁ .idle msg host port
    msg.toApply
  have hstart : received.1 = ⟨e₁, .idle, .handling msg host port msg.toApply⟩ := rfl
  rw [← hstart] at htakes hrun
  have hhandle : e.handleMessage msg host port now = (e₂, received.2 ++
      ((e₂.response msg).map fun r => e₂.message r.1 r.2).toList.map
        fun m => ⟨m, host, port⟩) := by
    have hreply := e₁.reply_eq msg
    change ((e₁.reply msg).1, received.2 ++ (e₁.reply msg).2.map _) = _
    rw [hreply]
  refine ⟨actions, htakes, ?_⟩
  rw [hrun, hhandle]
  cases e₂.response msg <;> exact ⟨rfl, rfl⟩

end GossipEngine

/-! ### Whole turns on a network -/

variable {N : Type*} {c : Network N} {t s₀ : ThreadedNetwork N} {a : Addressing N}
  {φ : GoldenRatio} {n : N}

/-- The engines with their threads at rest; what is in flight has been sent. -/
def Network.threads (c : Network N) : ThreadedNetwork N where
  nodes n := (c.engines n).atRest
  sent := c.inFlight

/-- The threads are at rest, and what is in flight has been sent. -/
structure Network.AtRest (c : Network N) (t : ThreadedNetwork N) : Prop where
  nodes : ∀ n, t.nodes n = (c.engines n).atRest
  sent : c.inFlight ⊆ t.sent

/-- Clients may make a call when its ids are new and its quantity has been checked. -/
def Network.ClientMay (c : Network N) : Turn N → Prop
  | .client _ call => c.threads.ClientMay call
  | _ => True

variable [DecidableEq N]

namespace ThreadedNetwork

omit [DecidableEq N] in
theorem canTake_act {action : ThreadAction} (hown : action.IsOwn)
    (h : (t.nodes n).CanTake action) : t.CanTake (.act n action) := by
  cases action with
  | receive => exact hown.elim
  | client => exact hown.elim
  | _ => exact h

theorem afterStep_afterStep (r r' : EngineThreads × List Datagram) :
    (t.afterStep a n r).afterStep a n r' = t.afterStep a n (r'.1, r.2 ++ r'.2) := by
  simp [afterStep, Addressing.packets]

/-- Critical sections of one node in a row. -/
theorem enables_acts (a : Addressing N) (s₀ : ThreadedNetwork N) {actions : List ThreadAction}
    (h : (t.nodes n).Takes φ actions) :
    (threadSystem φ a s₀).Enables t (actions.map (.act n)) ∧
      (threadSystem φ a s₀).run t (actions.map (.act n)) =
        t.afterStep a n ((t.nodes n).run φ actions) := by
  induction actions generalizing t with
  | nil =>
    refine ⟨trivial, ?_⟩
    simp [afterStep, EngineThreads.run, Addressing.packets]
  | cons action actions ih =>
    have hself : (t.afterStep a n ((t.nodes n).step φ action)).nodes n =
        ((t.nodes n).step φ action).1 := Function.update_self ..
    obtain ⟨henables, hrun⟩ := ih (t := t.afterStep a n ((t.nodes n).step φ action))
      (by rw [hself]; exact h.2)
    refine ⟨⟨canTake_act h.1.1 h.1.2, henables⟩, hrun.trans ?_⟩
    rw [hself, afterStep_afterStep]
    rfl

/-- A packet that has been sent is received and handled. -/
theorem exists_handling (φ : GoldenRatio) (a : Addressing N) (s₀ : ThreadedNetwork N) {k : ℕ}
    {p : Packet N} {e : GossipEngine} (hp : t.sent[k]? = some p) (hrest : t.nodes p.dst = e.atRest)
    (now : ℕ) : ∃ actions : List ThreadAction,
      let ls := .deliver k now :: actions.map (.act p.dst)
      let r := e.handleMessage p.msg p.senderHost p.senderPort now
      (∀ action ∈ actions, action.IsOwn) ∧ (threadSystem φ a s₀).Enables t ls ∧
        (threadSystem φ a s₀).run t ls = t.afterStep a p.dst (r.1.atRest, r.2) := by
  let received := (t.nodes p.dst).step φ (.receive (receipt p now))
  have hstep : t.step φ a (.deliver k now) = t.afterStep a p.dst received := by
    simp only [step, hp, received]
  obtain ⟨actions, htakes, hend, hsent⟩ := e.exists_takes_handleMessage (φ := φ) p.msg
    p.senderHost p.senderPort now
  rw [← hrest] at htakes hend hsent
  have hself : (t.afterStep a p.dst received).nodes p.dst = received.1 := Function.update_self ..
  obtain ⟨henables, hrun⟩ := enables_acts a s₀
    (t := t.afterStep a p.dst received) (n := p.dst) (by rw [hself]; exact htakes)
  refine ⟨actions, htakes.isOwn, ⟨⟨p, hp, ?_⟩, ?_⟩, ?_⟩
  · rw [hrest]
    rfl
  · change (threadSystem φ a s₀).Enables (t.step φ a (.deliver k now)) _
    rw [hstep]
    exact henables
  · change (threadSystem φ a s₀).run (t.step φ a (.deliver k now)) _ = _
    rw [hstep, hrun, hself, afterStep_afterStep]
    exact congrArg₂ (fun x y => t.afterStep a p.dst (x, y)) hend hsent

end ThreadedNetwork

namespace Network

theorem AtRest.afterTurn (h : c.AtRest t) (r : GossipEngine × List Datagram) :
    (c.afterTurn a n r).AtRest (t.afterStep a n (r.1.atRest, r.2)) where
  nodes m := by
    by_cases hm : m = n
    · subst hm
      rw [engines_afterTurn_self]
      exact Function.update_self ..
    · rw [engines_afterTurn_of_ne hm, ← h.nodes m]
      exact Function.update_of_ne hm ..
  sent := by
    intro p hp
    rcases List.mem_append.mp hp with hp | hp
    · exact List.mem_append_left _ (h.sent hp)
    · exact List.mem_append_right _ hp

omit [DecidableEq N] in
theorem AtRest.drop (h : c.AtRest t) (k : ℕ) : (c.drop k).AtRest t where
  nodes := h.nodes
  sent _ hp := h.sent (List.mem_of_mem_eraseIdx hp)

omit [DecidableEq N] in
theorem AtRest.clientMay (h : c.AtRest t) {call : Call ℚ} (hcall : c.threads.ClientMay call) :
    t.ClientMay call := by
  obtain ⟨nodes, sent⟩ := t
  obtain rfl : nodes = c.threads.nodes := funext h.nodes
  exact hcall

/-- A turn that takes an engine from rest to rest. -/
theorem AtRest.completes (h : c.AtRest t) {r : GossipEngine × List Datagram}
    (hr : (c.engines n).Completes φ r) : ∃ ls, (threadSystem φ a s₀).Enables t ls ∧
      (c.afterTurn a n r).AtRest ((threadSystem φ a s₀).run t ls) := by
  obtain ⟨actions, htakes, hrun⟩ := hr
  rw [← h.nodes n] at htakes hrun
  obtain ⟨henables, heq⟩ := ThreadedNetwork.enables_acts a s₀ htakes
  refine ⟨_, henables, ?_⟩
  rw [heq, hrun]
  exact h.afterTurn r

/-- A message is received and handled. -/
theorem AtRest.deliver (h : c.AtRest t) {k : ℕ} (hk : k < c.inFlight.length) (now : ℕ) :
    ∃ ls, (threadSystem φ a s₀).Enables t ls ∧
      (c.step φ a (.deliver k now)).AtRest ((threadSystem φ a s₀).run t ls) := by
  have hp := List.getElem?_eq_getElem hk
  generalize c.inFlight[k] = p at hp
  obtain ⟨k', hk'⟩ := List.getElem?_of_mem (h.sent (List.mem_of_getElem? hp))
  obtain ⟨actions, -, henables, hrun⟩ := ThreadedNetwork.exists_handling φ a s₀ hk'
    (h.nodes p.dst) now
  refine ⟨_, henables, ?_⟩
  rw [hrun]
  simp only [Network.step, hp]
  exact (h.drop k).afterTurn _

/-- The threads have a run for every whole turn. -/
theorem simulates (φ : GoldenRatio) (a : Addressing N) (c₀ : Network N) :
    (threadSystem φ a c₀.threads).Simulates ((networkSystem φ a c₀).restrict ClientMay) AtRest := by
  intro c t l h hl
  cases l with
  | gossipRound n choice => exact h.completes ((c.engines n).completes_doGossipRound choice)
  | heartbeat n choice => exact h.completes ((c.engines n).completes_heartbeat choice)
  | checkLiveness n now => exact h.completes ((c.engines n).completes_checkLiveness now)
  | lose k => exact ⟨[], trivial, h.drop k⟩
  | client n call =>
    refine ⟨[.act n (.client call)], ⟨h.clientMay hl.2, trivial⟩, ?_⟩
    have hstep : ((t.nodes n).step φ (.client call)) =
        ({ c.engines n with crdtBook := call.run (c.engines n).crdtBook }.atRest, []) := by
      rw [h.nodes n]
      rfl
    have hturn := h.afterTurn (a := a) (n := n)
      ({ c.engines n with crdtBook := call.run (c.engines n).crdtBook }, [])
    rwa [← hstep] at hturn
  | deliver k now => exact h.deliver hl.1 now

/-- **Whole turns are interleavings.** Every run of a network in whole turns, whose clients generate
new ids and pass the check of quantities, is a run of the threads: it ends with the same engines,
and with what is in flight among what has been sent. -/
theorem exists_interleaving (φ : GoldenRatio) (a : Addressing N) (c₀ : Network N)
    {ls : List (Turn N)} (h : (networkSystem φ a c₀).Enables c₀ ls)
    (hclients : (networkSystem φ a c₀).Guarded ClientMay c₀ ls) :
    ∃ ls', (threadSystem φ a c₀.threads).Enables c₀.threads ls' ∧
      ((networkSystem φ a c₀).run c₀ ls).AtRest
        ((threadSystem φ a c₀.threads).run c₀.threads ls') :=
  (simulates φ a c₀).run ⟨fun _ => rfl, List.Subset.refl _⟩ (enables_restrict.mpr ⟨h, hclients⟩)

/-- The engines of the two nodes. -/
def twoEngines : Network Bool where
  engines i := (ThreadedNetwork.twoNodes.nodes i).engine
  inFlight := []

/-- An order is added at `a` and pushed to `b`, which handles the message and sends a heartbeat. -/
def pushInTurns : List (Turn Bool) :=
  [.client true (.addOrder Side.buy 100 5 [120] [1]), .gossipRound true 0, .deliver 0 1,
    .heartbeat false 0, .checkLiveness true 5, .lose 0]

theorem exists_interleaving_pushInTurns :
    ∃ ls', (threadSystem .exact ThreadedNetwork.twoAddresses twoEngines.threads).Enables
        twoEngines.threads ls' ∧
      ((networkSystem .exact ThreadedNetwork.twoAddresses twoEngines).run twoEngines
        pushInTurns).AtRest ((threadSystem .exact ThreadedNetwork.twoAddresses
          twoEngines.threads).run twoEngines.threads ls') :=
  exists_interleaving .exact ThreadedNetwork.twoAddresses twoEngines
    ⟨trivial, trivial, Nat.zero_lt_one, trivial, trivial, Nat.zero_lt_one, trivial⟩
    ⟨⟨⟨fun _ _ hop => absurd hop List.not_mem_nil, fun _ _ hop => absurd hop List.not_mem_nil⟩,
      show (0 : ℤ) < 5 by decide⟩, trivial, trivial, trivial, trivial, trivial, trivial⟩

end Network

end Convergence
