import Convergence.Gossip.CatchingUp
import Convergence.Gossip.PeerIdentity
import Convergence.Library.Progress

/-!
# Rounds in a silence

While the clients are silent and what is sent arrives, a node informs another one by choosing it for
a round: of what it has logged in a push, and of what the other one has logged in a pull, which the
other one answers. The thread that has chosen a peer sends the message of the round before it does
anything else.

## Main definitions

* `GossipThread.Heads`: a round whose message has not been sent yet.
* `GossipEngine.SetUpAs`: what no step changes.
* `ThreadedNetwork.Silence`, `ThreadedNetwork.Chooses`.

## Main results

* `EngineThreads.heads_step`, `EngineThreads.setUpAs_step`.
* `ThreadedNetwork.Silence.informs`: what a choice brings about.
-/

namespace Convergence

open TransitionSystem VectorTime

/-! ### What steps leave alone -/

/-- The engine has been set up like another one: its peers have the same addresses. -/
structure GossipEngine.SetUpAs (e e₀ : GossipEngine) : Prop where
  nodeId : e.nodeId = e₀.nodeId
  strategy : e.strategy = e₀.strategy
  scheduler : e.scheduler = e₀.scheduler
  myNodeIndex : e.myNodeIndex = e₀.myNodeIndex
  addresses : e.peers.map PeerInfo.address = e₀.peers.map PeerInfo.address

theorem GossipEngine.SetUpAs.trans {e e₁ e₂ : GossipEngine} (h : e.SetUpAs e₁)
    (h' : e₁.SetUpAs e₂) : e.SetUpAs e₂ where
  nodeId := h.nodeId.trans h'.nodeId
  strategy := h.strategy.trans h'.strategy
  scheduler := h.scheduler.trans h'.scheduler
  myNodeIndex := h.myNodeIndex.trans h'.myNodeIndex
  addresses := h.addresses.trans h'.addresses

/-- What a step does to the engine. -/
inductive EngineThreads.EngineMoves (φ : GoldenRatio) (e : GossipEngine) :
    ThreadAction → GossipEngine → Prop
  | chooses (choice : ℕ) : EngineMoves φ e (.choosePeer choice) (e.selectPeer φ choice).1
  | touches (r : Receipt) : EngineMoves φ e (.receive r)
      { e with peers := (touchPeers r.msg.senderId r.senderHost r.now e.peers).1 }
  | checks (now : ℕ) : EngineMoves φ e (.checkLiveness now) (e.checkLiveness now)
  | keeps {action : ThreadAction} (crdtBook : CRDTOrderBook ℚ)
      (h : ∀ choice, action ≠ .choosePeer choice) : EngineMoves φ e action
        { e with crdtBook := crdtBook }

namespace EngineThreads

variable {φ : GoldenRatio} {s : EngineThreads} {action : ThreadAction} {host : Str} {port : ℕ}
  {mode : SyncMode}

theorem engineMoves (φ : GoldenRatio) (s : EngineThreads) (action : ThreadAction) :
    EngineMoves φ s.engine action (s.step φ action).1.engine := by
  cases action with
  | choosePeer choice => exact .chooses choice
  | receive r => exact .touches r
  | checkLiveness now => exact .checks now
  | readClock =>
    simp only [step]
    split <;> exact .keeps _ fun _ h => by cases h
  | sendRound =>
    simp only [step]
    split <;> exact .keeps _ fun _ h => by cases h
  | sendHeartbeat =>
    simp only [step]
    split <;> exact .keeps _ fun _ h => by cases h
  | lookUp =>
    simp only [step]
    split <;> exact .keeps _ fun _ h => by cases h
  | sendAnswer =>
    simp only [step]
    split <;> exact .keeps _ fun _ h => by cases h
  | applyNext =>
    simp only [step]
    split <;> exact .keeps _ fun _ h => by cases h
  | chooseHeartbeat => exact .keeps _ fun _ h => by cases h
  | client => exact .keeps _ fun _ h => by cases h

/-- No step changes the setup. -/
theorem setUpAs_step (φ : GoldenRatio) (s : EngineThreads) (action : ThreadAction) :
    (s.step φ action).1.engine.SetUpAs s.engine := by
  have hmoves := s.engineMoves φ action
  generalize (s.step φ action).1.engine = e at hmoves
  cases hmoves with
  | chooses choice =>
    rw [GossipEngine.selectPeer_fst]
    exact ⟨rfl, rfl, rfl, rfl, rfl⟩
  | touches r => exact ⟨rfl, rfl, rfl, rfl, GossipEngine.map_address_touchPeers _ _⟩
  | checks now =>
    refine ⟨rfl, rfl, rfl, rfl, ?_⟩
    rw [GossipEngine.checkLiveness, List.map_map]
    refine List.map_congr_left fun p _ => ?_
    rw [Function.comp_apply]
    split_ifs <;> rfl
  | keeps => exact ⟨rfl, rfl, rfl, rfl, rfl⟩

/-! ### The gossip thread -/

/-- A round has chosen the address, and its message has not been sent yet. -/
def Heads (s : EngineThreads) (host : Str) (port : ℕ) (mode : SyncMode) : Prop :=
  s.gossip = .chosen host port mode ∨ ∃ clock, s.gossip = .clocked host port mode clock

/-- The thread that has chosen a peer does nothing else before it has sent the message. -/
theorem heads_step (h : s.Heads host port mode) (hl : s.CanTake action) :
    (s.step φ action).1.Heads host port mode ∨
      action = .sendRound ∧ ∃ clock, s.gossip = .clocked host port mode clock := by
  have hidle : s.gossip ≠ .idle := by
    rcases h with h | ⟨clock, h⟩ <;> rw [h] <;> exact nofun
  cases action with
  | choosePeer => exact absurd hl hidle
  | chooseHeartbeat => exact absurd hl hidle
  | checkLiveness => exact absurd hl hidle
  | sendHeartbeat =>
    obtain ⟨host', port', hbeating⟩ := hl
    rcases h with h | ⟨clock, h⟩ <;> cases hbeating.symm.trans h
  | readClock =>
    obtain ⟨host', port', mode', hchosen⟩ := hl
    rcases h with h | ⟨clock, h⟩
    · left
      simp only [step, h]
      exact Or.inr ⟨_, rfl⟩
    · cases hchosen.symm.trans h
  | sendRound =>
    obtain ⟨host', port', mode', clock', hclocked⟩ := hl
    rcases h with h | h
    · cases hclocked.symm.trans h
    · exact Or.inr ⟨rfl, h⟩
  | applyNext =>
    left
    simp only [Heads, step]
    split <;> exact h
  | lookUp =>
    left
    simp only [Heads, step]
    split <;> exact h
  | sendAnswer =>
    left
    simp only [Heads, step]
    split <;> exact h
  | receive => exact Or.inl h
  | client => exact Or.inl h

end EngineThreads

namespace ThreadedNetwork

variable {N : Type*} [DecidableEq N] {id : N → Str} {a : Addressing N} {φ : GoldenRatio}
  {s s₀ : ThreadedNetwork N} {i j n : N} {ls : List (ThreadTurn N)} {host : Str} {port : ℕ}
  {mode : SyncMode}

theorem setUpAs_step (φ : GoldenRatio) (a : Addressing N) {l : ThreadTurn N} (hl : s.CanTake l)
    (n : N) : ((s.step φ a l).nodes n).engine.SetUpAs (s.nodes n).engine := by
  obtain ⟨m, action, -, hstep, -⟩ := exists_act φ a hl
  rw [hstep]
  exact forall_nodes_afterStep (I := fun n t => t.engine.SetUpAs (s.nodes n).engine)
    (fun _ _ => ⟨rfl, rfl, rfl, rfl, rfl⟩) (EngineThreads.setUpAs_step φ _ action) n

theorem setUpAs_run (h : (threadSystem φ a s₀).Enables s ls) (n : N) :
    (((threadSystem φ a s₀).run s ls).nodes n).engine.SetUpAs (s.nodes n).engine :=
  h.run_invariant (I := fun t => (t.nodes n).engine.SetUpAs (s.nodes n).engine)
    ⟨rfl, rfl, rfl, rfl, rfl⟩ fun _ _ ht hl => (setUpAs_step φ a hl n).trans ht

/-! ### Silences -/

/-- The clients are silent, what is sent arrives, and in the end the threads are at their loops. -/
structure Silence (φ : GoldenRatio) (a : Addressing N) (s : ThreadedNetwork N)
    (ls : List (ThreadTurn N)) : Prop where
  silent : ∀ n call, .act n (.client call) ∉ ls
  delivered : Delivers φ a s ls s.sent.length
  received : ∀ n, (((threadSystem φ a s).run s ls).nodes n).receiver = .waiting
  idle : ∀ n, (((threadSystem φ a s).run s ls).nodes n).gossip = .idle

/-- In the step, the node `n` chooses a peer at this address for a round. -/
def Chooses (φ : GoldenRatio) (n : N) (host : Str) (port : ℕ) (mode : SyncMode)
    (s : ThreadedNetwork N) (l : ThreadTurn N) : Prop :=
  ∃ choice p, l = .act n (.choosePeer choice) ∧
    ((s.nodes n).engine.selectPeer φ choice).2 = (some p, mode) ∧ p.host = host ∧ p.port = port

/-- A thread that has chosen a peer sends the message of the round, if it is idle in the end. -/
theorem Chooses.exists_sendRound (h : (threadSystem φ a s₀).Enables s ls)
    (hidle : (((threadSystem φ a s₀).run s ls).nodes n).gossip = .idle)
    (hchoice : (threadSystem φ a s₀).Takes (Chooses φ n host port mode) s ls) :
    (threadSystem φ a s₀).Takes (fun s l => l = .act n .sendRound ∧
      ∃ clock, (s.nodes n).gossip = .clocked host port mode clock) s ls := by
  obtain ⟨before, l, after, rfl, hl, choice, p, rfl, hselect, rfl, rfl⟩ := hchoice
  obtain ⟨hbefore, -, hafter⟩ := enables_append.mp h
  rw [run_append, run_cons] at hidle
  refine Takes.append (Takes.tail ?_)
  generalize (threadSystem φ a s₀).run s before = t at *
  have hheads : ((t.step φ a (.act n (.choosePeer choice))).nodes n).Heads p.host p.port mode := by
    left
    simp [ThreadedNetwork.step, EngineThreads.step, hselect]
  obtain ⟨front, l, rest, rfl, hl, hyes, hno⟩ := hafter.exists_exit
    (p := fun t => (t.nodes n).Heads p.host p.port mode) hheads fun hend => by
      rcases hend with hend | ⟨clock, hend⟩ <;> cases hidle.symm.trans hend
  refine ⟨front, l, rest, rfl, hl, ?_⟩
  change ¬ ((ThreadedNetwork.step φ a _ l).nodes n).Heads p.host p.port mode at hno
  generalize (threadSystem φ a s₀).run _ front = u at *
  obtain ⟨m, action, haction, hstep, hlabel⟩ := exists_act φ a hl
  rw [hstep] at hno
  by_cases hn : n = m
  · subst hn
    rw [nodes_afterStep_self] at hno
    obtain ⟨rfl, hclocked⟩ := (EngineThreads.heads_step hyes haction).resolve_left hno
    refine ⟨hlabel.resolve_left ?_, hclocked⟩
    rintro ⟨_, _, _, _, hreceive⟩
    cases hreceive
  · rw [nodes_afterStep_of_ne hn] at hno
    exact absurd hyes hno

/-- A node that is chosen for a push is informed. -/
theorem Chooses.informs_of_push (h : (threadSystem φ a s₀).Enables s ls)
    (hidle : (((threadSystem φ a s₀).run s ls).nodes j).gossip = .idle)
    (hchoice : (threadSystem φ a s₀).Takes (Chooses φ j host port mode) s ls)
    (hroute : a.route host port = some i)
    (hpush : (s.nodes j).engine.strategy = .wythoff → mode = .push) :
    (threadSystem φ a s₀).Takes (Informs a i j) s ls := by
  obtain ⟨before, l, after, rfl, hl, rfl, clock, hclocked⟩ := exists_sendRound h hidle hchoice
  refine ⟨before, _, after, rfl, hl, rfl, host, port, mode, clock, hclocked, hroute, ?_⟩
  have hsetup := setUpAs_run (enables_append.mp h).1 j
  generalize ((threadSystem φ a s₀).run s before).nodes j = t at *
  rw [GossipEngine.roundMessage, hsetup.strategy, if_neg]
  · change (if _ then MessageType.gossipPush else _) ≠ _
    split_ifs <;> decide
  · rintro ⟨hstrategy, rfl⟩
    cases hpush hstrategy

/-- In a silence in which everybody is informed, nodes catch up. -/
theorem Silence.catchUp (h : Silence φ a s ls)
    (hinformed : ∀ i j, i ≠ j → (threadSystem φ a s₀).Takes (Informs a i j) s ls) :
    CatchUp φ a s ls where
  silent := h.silent
  informed i j hij := by
    obtain ⟨before, l, after, hls, -, hl⟩ := hinformed i j hij
    exact ⟨before, l, after, hls, hl⟩
  delivered := h.delivered
  finished := h.received

end ThreadedNetwork

end Convergence
