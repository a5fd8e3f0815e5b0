import Convergence.Gossip.Network
import Convergence.Gossip.PeerChoice

/-!
# Healing after a partition

A long partition leaves every node with a table that marks its own group alive and all others dead.
From then on nobody outside the group is chosen, unless the node is alone in its group and has
nobody else to choose. The flags do not change by messages within the groups either, unless the
sender is taken for a peer of another group: `handle_message` takes the first entry with the
sender's id or host for the sender, and gives it the sender's id.

## Main definitions

* `TakenFor`, `Mistakable`: when messages of some nodes are taken for messages of others.
* `Network.Partitioned`: the state that a long partition leaves.
* `healSystem`: gossip rounds, heartbeats and deliveries.

## Main results

* `Network.partitioned_of_reachable`, `Network.exists_crosses_of_mistakable`.
* `Network.crosses_iff`.
-/

namespace Convergence

open TransitionSystem

/-! ### The entry that a message is taken to come from -/

/-- An entry after a message. -/
def PeerInfo.touched (p : PeerInfo) (senderId : Str) (now : ℕ) : PeerInfo :=
  { p with isAlive := true, lastHeard := now, nodeId := senderId }

/-- A message is taken to come from the peer `p`, which stands after the peers `before`. -/
structure TakenFor (senderId senderHost : Str) (before : List PeerInfo) (p : PeerInfo) : Prop where
  names : p.nodeId = senderId ∨ p.host = senderHost
  first : ∀ q ∈ before, ¬ (q.nodeId = senderId ∨ q.host = senderHost)

section Touch

variable {senderId senderHost : Str} {now : ℕ} {before after peers : List PeerInfo} {p : PeerInfo}

theorem touchPeers_of_takenFor (h : TakenFor senderId senderHost before p) :
    touchPeers senderId senderHost now (before ++ p :: after) =
      (before ++ p.touched senderId now :: after,
        if p.isAlive then none else some (p.touched senderId now)) := by
  obtain ⟨hnames, hfirst⟩ := h
  induction before with
  | nil => exact if_pos hnames
  | cons q before ih =>
    have hrest := ih fun r hr => hfirst r (List.mem_cons_of_mem q hr)
    rw [List.cons_append, touchPeers, if_neg (hfirst q List.mem_cons_self), hrest]
    rfl

theorem touchPeers_cases (senderId senderHost : Str) (now : ℕ) (peers : List PeerInfo) :
    touchPeers senderId senderHost now peers = (peers, none) ∨
      ∃ before p after, peers = before ++ p :: after ∧ TakenFor senderId senderHost before p := by
  induction peers with
  | nil => exact Or.inl rfl
  | cons q peers ih =>
    by_cases hq : q.nodeId = senderId ∨ q.host = senderHost
    · exact Or.inr ⟨[], q, peers, rfl, hq, fun _ hr => absurd hr List.not_mem_nil⟩
    · obtain hnone | ⟨before, p, after, rfl, hnames, hfirst⟩ := ih
      · rw [touchPeers, if_neg hq, hnone]
        exact Or.inl rfl
      · refine Or.inr ⟨q :: before, p, after, rfl, hnames, fun r hr => ?_⟩
        obtain rfl | hr := List.mem_cons.mp hr
        exacts [hq, hfirst r hr]

/-- Where an entry leads and whether it is alive. -/
def PeerInfo.face (p : PeerInfo) : Str × ℕ × Bool := (p.host, p.port, p.isAlive)

/-- A table in which nobody comes back looks the same. -/
theorem map_face_touchPeers (h : (touchPeers senderId senderHost now peers).2 = none) :
    (touchPeers senderId senderHost now peers).1.map PeerInfo.face = peers.map PeerInfo.face := by
  obtain hnone | ⟨before, p, after, rfl, htaken⟩ := touchPeers_cases senderId senderHost now peers
  · rw [hnone]
  · rw [touchPeers_of_takenFor htaken] at h ⊢
    have halive : p.isAlive = true := by
      by_contra hdead
      rw [if_neg hdead] at h
      cases h
    have hface : (p.touched senderId now).face = p.face := by
      rw [PeerInfo.face, PeerInfo.face, halive]
      rfl
    simp only [List.map_append, List.map_cons, hface]

end Touch

/-- A table in which a message of one of the `mate`s is taken to come from a `foreign` peer: at
once, or after messages of mates have given their ids to the peers that they are taken to come
from. -/
inductive Mistakable (mate : Str → Str → Prop) (foreign : PeerInfo → Prop) : List PeerInfo → Prop
  | now {senderId senderHost : Str} {before after : List PeerInfo} {p : PeerInfo}
      (hmate : mate senderId senderHost) (htaken : TakenFor senderId senderHost before p)
      (hforeign : foreign p) : Mistakable mate foreign (before ++ p :: after)
  | later {senderId senderHost : Str} {before after : List PeerInfo} {p : PeerInfo} (now : ℕ)
      (hmate : mate senderId senderHost) (htaken : TakenFor senderId senderHost before p)
      (hlater : Mistakable mate foreign (before ++ p.touched senderId now :: after)) :
      Mistakable mate foreign (before ++ p :: after)

/-! ### Groups -/

variable {N G : Type*} {id : N → Str} {a : Addressing N} {group : N → G}

/-- The peer-table entry is for the node `j`. -/
def Addressing.Leads (a : Addressing N) (p : PeerInfo) (j : N) : Prop :=
  a.route p.host p.port = some j

/-- The entry is for a node outside the group of `i`. -/
def Addressing.Foreign (a : Addressing N) (group : N → G) (i : N) (p : PeerInfo) : Prop :=
  ∃ j, a.Leads p j ∧ group j ≠ group i

/-- The id and the host of another node of the group of `i`. -/
def Addressing.Mate (a : Addressing N) (id : N → Str) (group : N → G) (i : N)
    (senderId senderHost : Str) : Prop :=
  ∃ j, j ≠ i ∧ group j = group i ∧ id j = senderId ∧ a.host j = senderHost

/-- The engine of the node `i` of the strategy `RANDOM` or `ROUND_ROBIN`, with every other node as a
peer, and those of its own group alive. -/
structure GossipEngine.Separated (id : N → Str) (a : Addressing N) (group : N → G) (i : N)
    (e : GossipEngine) : Prop where
  nodeId : e.nodeId = id i
  strategy : e.strategy ≠ .wythoff
  /-- The index starts at zero, and the rounds keep it in range. -/
  rrIndex : e.rrIndex < e.peers.length
  leads : ∀ p ∈ e.peers, ∃ j, j ≠ i ∧ a.Leads p j
  knows : ∀ j, j ≠ i → ∃ p ∈ e.peers, a.Leads p j
  alive_iff : ∀ p ∈ e.peers, ∀ j, a.Leads p j → (p.isAlive ↔ group j = group i)

/-- A packet within a group, as the network delivers it. -/
def Packet.Domestic (id : N → Str) (a : Addressing N) (group : N → G) (p : Packet N) : Prop :=
  ∃ s, p.src = some s ∧ s ≠ p.dst ∧ group s = group p.dst ∧ p.msg.senderId = id s ∧
    p.senderHost = a.host s ∧ p.senderPort = a.port s

/-- A packet from a group to another one. -/
def Packet.Crosses (group : N → G) (p : Packet N) : Prop :=
  ∃ s, p.src = some s ∧ group s ≠ group p.dst

/-- The state that a long partition leaves. -/
structure Network.Partitioned (id : N → Str) (a : Addressing N) (group : N → G) (c : Network N) :
    Prop where
  engines : ∀ i, (c.engines i).Separated id a group i
  inFlight : ∀ p ∈ c.inFlight, p.Domestic id a group

/-- A gossip round, a heartbeat or a delivery. -/
def Turn.IsExchange : Turn N → Prop
  | .gossipRound .. => True
  | .heartbeat .. => True
  | .deliver .. => True
  | _ => False

/-- The runs of a network in which nothing is lost and no timeout fires. -/
def healSystem [DecidableEq N] (φ : GoldenRatio) (a : Addressing N) (c : Network N) :
    TransitionSystem (Network N) (Turn N) :=
  (networkSystem φ a c).restrict fun _ l => l.IsExchange

/-! ### Within the groups -/

namespace GossipEngine

variable {i : N} {e e' : GossipEngine}

/-- A datagram to another node of the group. -/
def Sends (e : GossipEngine) (a : Addressing N) (group : N → G) (i : N) (d : Datagram) : Prop :=
  d.msg.senderId = e.nodeId ∧ ∃ j, i ≠ j ∧ a.route d.host d.port = some j ∧ group i = group j

/-- Names and times are not looked at. -/
theorem Separated.congr (h : e.Separated id a group i) (hnode : e'.nodeId = e.nodeId)
    (hstrategy : e'.strategy = e.strategy) (hrr : e'.rrIndex < e'.peers.length)
    (hface : e'.peers.map PeerInfo.face = e.peers.map PeerInfo.face) :
    e'.Separated id a group i := by
  have hold {p : PeerInfo} (hp : p ∈ e'.peers) : ∃ q ∈ e.peers, q.face = p.face :=
    List.mem_map.mp (hface ▸ List.mem_map_of_mem hp)
  have hnew {p : PeerInfo} (hp : p ∈ e.peers) : ∃ q ∈ e'.peers, q.face = p.face :=
    List.mem_map.mp (hface ▸ List.mem_map_of_mem hp)
  have hleads {p q : PeerInfo} (h : q.face = p.face) (j : N) : a.Leads q j ↔ a.Leads p j := by
    rw [PeerInfo.face, PeerInfo.face, Prod.mk.injEq, Prod.mk.injEq] at h
    rw [Addressing.Leads, Addressing.Leads, h.1, h.2.1]
  refine ⟨hnode.trans h.nodeId, hstrategy ▸ h.strategy, hrr, fun p hp => ?_, fun j hj => ?_,
    fun p hp j hj => ?_⟩
  · obtain ⟨q, hq, hqp⟩ := hold hp
    obtain ⟨j, hj, hlead⟩ := h.leads q hq
    exact ⟨j, hj, (hleads hqp j).mp hlead⟩
  · obtain ⟨p, hp, hlead⟩ := h.knows j hj
    obtain ⟨q, hq, hqp⟩ := hnew hp
    exact ⟨q, hq, (hleads hqp j).mpr hlead⟩
  · obtain ⟨q, hq, hqp⟩ := hold hp
    rw [← h.alive_iff q hq j ((hleads hqp j).mpr hj)]
    rw [PeerInfo.face, PeerInfo.face, Prod.mk.injEq, Prod.mk.injEq] at hqp
    rw [hqp.2.2]

/-- A node with company chooses company. -/
theorem Separated.sends (h : e.Separated id a group i) (hmate : ∃ j, j ≠ i ∧ group j = group i)
    {p : PeerInfo} (hp : PrefersAlive e.peers p) {m : Message} (hm : m.senderId = e.nodeId) :
    e.Sends a group i ⟨m, p.host, p.port⟩ := by
  obtain ⟨j, hj, hgroup⟩ := hmate
  obtain ⟨q, hq, hqj⟩ := h.knows j hj
  have halive : p.isAlive := hp.isAlive q hq ((h.alive_iff q hq j hqj).mpr hgroup)
  obtain ⟨k, hk, hpk⟩ := h.leads p hp.mem
  exact ⟨hm, k, hk.symm, hpk, ((h.alive_iff p hp.mem k hpk).mp halive).symm⟩

theorem senderId_roundMessage (e : GossipEngine) (mode : SyncMode) :
    (e.roundMessage mode).senderId = e.nodeId := by
  rw [roundMessage]
  split_ifs <;> rfl

theorem Separated.doGossipRound (h : e.Separated id a group i)
    (hmate : ∃ j, j ≠ i ∧ group j = group i) (φ : GoldenRatio) (choice : ℕ) :
    (e.doGossipRound φ choice).1.Separated id a group i ∧
      ∀ d ∈ (e.doGossipRound φ choice).2, e.Sends a group i d := by
  have hfst := selectPeer_fst φ e choice
  have hnode : (e.selectPeer φ choice).1.nodeId = e.nodeId := by rw [hfst]
  have hpeers : (e.selectPeer φ choice).1.peers = e.peers := by rw [hfst]
  refine ⟨h.congr hnode (by rw [GossipEngine.doGossipRound, hfst]) ?_ (congrArg _ hpeers), ?_⟩
  · exact hpeers ▸ rrIndex_selectPeer h.strategy h.rrIndex
  · intro d hd
    obtain ⟨p, hp, rfl⟩ := Option.map_eq_some_iff.mp (Option.mem_toList.mp hd)
    exact h.sends hmate (mem_of_selectPeer h.strategy h.rrIndex hp)
      ((senderId_roundMessage _ _).trans hnode)

theorem Separated.heartbeat (h : e.Separated id a group i)
    (hmate : ∃ j, j ≠ i ∧ group j = group i) (choice : ℕ) :
    ∀ d ∈ e.heartbeat choice, e.Sends a group i d := by
  intro d hd
  obtain ⟨p, hp, rfl⟩ := Option.map_eq_some_iff.mp (Option.mem_toList.mp hd)
  exact h.sends hmate (mem_of_selectRandomPeer hp) rfl

/-- A message of a mate that is not taken to come from a dead peer. -/
theorem Separated.handleMessage (h : e.Separated id a group i) (msg : Message) {host : Str}
    {port now : ℕ} {s : N} (hs : i ≠ s) (hgroup : group i = group s)
    (hroute : a.route host port = some s)
    (hnone : (touchPeers msg.senderId host now e.peers).2 = none) :
    (e.handleMessage msg host port now).1.Separated id a group i ∧
      ∀ d ∈ (e.handleMessage msg host port now).2, e.Sends a group i d := by
  refine ⟨h.congr nodeId_handleMessage strategy_handleMessage ?_ ?_, fun d hd => ?_⟩
  · rw [rrIndex_handleMessage, peers_handleMessage, length_touchPeers]
    exact h.rrIndex
  · rw [peers_handleMessage, map_face_touchPeers hnone]
  · simp only [GossipEngine.handleMessage, hnone, syncRequest, Option.map_none, Option.toList_none,
      List.nil_append] at hd
    obtain ⟨m, hm, rfl⟩ := List.mem_map.mp hd
    have hsender := senderId_reply hm
    exact ⟨hsender, s, hs, hroute, hgroup⟩

end GossipEngine

/-- Unless a message of a mate is taken to come from a foreign peer, nobody comes back. -/
theorem Network.Partitioned.touchPeers_snd {c : Network N} (h : c.Partitioned id a group) {i : N}
    {senderId senderHost : Str} (now : ℕ) (hmate : a.Mate id group i senderId senderHost)
    (hnot : ¬ Mistakable (a.Mate id group i) (a.Foreign group i) (c.engines i).peers) :
    (touchPeers senderId senderHost now (c.engines i).peers).2 = none ∧
      ¬ Mistakable (a.Mate id group i) (a.Foreign group i)
        (touchPeers senderId senderHost now (c.engines i).peers).1 := by
  obtain hnone | ⟨before, p, after, hpeers, htaken⟩ :=
    touchPeers_cases senderId senderHost now (c.engines i).peers
  · rw [hnone]
    exact ⟨rfl, hnot⟩
  · have hp : p ∈ (c.engines i).peers := hpeers ▸ List.mem_append_right _ List.mem_cons_self
    obtain ⟨j, -, hlead⟩ := (h.engines i).leads p hp
    rw [hpeers] at hnot
    have halive : p.isAlive := ((h.engines i).alive_iff p hp j hlead).mpr <| by
      by_contra hforeign
      exact hnot (.now hmate htaken ⟨j, hlead, hforeign⟩)
    rw [hpeers, touchPeers_of_takenFor htaken, if_pos halive]
    exact ⟨rfl, fun hlater => hnot (.later now hmate htaken hlater)⟩

namespace Network

variable [DecidableEq N] {c : Network N} {φ : GoldenRatio} {i j : N}

/-- The turn of a node that sends within its group. -/
theorem Partitioned.afterTurn (h : c.Partitioned id a group) {n : N}
    {r : GossipEngine × List Datagram} (hr : r.1.Separated id a group n)
    (hsends : ∀ d ∈ r.2, d.msg.senderId = id n ∧
      ∃ j, n ≠ j ∧ a.route d.host d.port = some j ∧ group n = group j) :
    (c.afterTurn a n r).Partitioned id a group where
  engines := forall_engines_afterTurn h.engines hr
  inFlight p hp := by
    obtain hp | hp := List.mem_append.mp hp
    · exact h.inFlight p hp
    · obtain ⟨d, hd, hpd⟩ := List.mem_filterMap.mp hp
      obtain ⟨dst, hdst, rfl⟩ := Option.map_eq_some_iff.mp hpd
      obtain ⟨hsender, j, hj, hroute, hgroup⟩ := hsends d hd
      obtain rfl : dst = j := Option.some_inj.mp (hdst.symm.trans hroute)
      exact ⟨n, rfl, hj, hgroup, hsender, rfl, rfl⟩

omit [DecidableEq N] in
theorem Partitioned.drop (h : c.Partitioned id a group) (k : ℕ) :
    (c.drop k).Partitioned id a group :=
  ⟨h.engines, fun p hp => h.inFlight p (List.mem_of_mem_eraseIdx hp)⟩

/-- No message of a mate comes to be taken to come from a foreign peer. -/
def Discerning (id : N → Str) (a : Addressing N) (group : N → G) (c : Network N) : Prop :=
  ∀ i, ¬ Mistakable (a.Mate id group i) (a.Foreign group i) (c.engines i).peers

theorem Discerning.afterTurn (h : c.Discerning id a group) {n : N}
    {r : GossipEngine × List Datagram}
    (hn : ¬ Mistakable (a.Mate id group n) (a.Foreign group n) r.1.peers) :
    (c.afterTurn a n r).Discerning id a group :=
  forall_engines_afterTurn (I := fun i e => ¬ Mistakable (a.Mate id group i) (a.Foreign group i)
    e.peers) h hn

/-- Groups of at least two nodes keep to themselves. -/
theorem partitioned_step (hself : ∀ i, a.route (a.host i) (a.port i) = some i)
    (hmate : ∀ i, ∃ j, j ≠ i ∧ group j = group i) (h : c.Partitioned id a group)
    (hnot : c.Discerning id a group) {l : Turn N} (hl : l.IsExchange) :
    (c.step φ a l).Partitioned id a group ∧ (c.step φ a l).Discerning id a group := by
  cases l with
  | gossipRound n choice =>
    obtain ⟨hround, hsends⟩ := (h.engines n).doGossipRound (hmate n) φ choice
    refine ⟨h.afterTurn hround fun d hd => ?_, hnot.afterTurn ?_⟩
    · rw [← (h.engines n).nodeId]
      exact hsends d hd
    · rw [GossipEngine.doGossipRound, GossipEngine.selectPeer_fst]
      exact hnot n
  | heartbeat n choice =>
    refine ⟨h.afterTurn (h.engines n) fun d hd => ?_, hnot.afterTurn (hnot n)⟩
    rw [← (h.engines n).nodeId]
    exact (h.engines n).heartbeat (hmate n) choice d hd
  | deliver k now =>
    cases hk : c.inFlight[k]? with
    | none =>
      simp only [step, hk]
      exact ⟨h, hnot⟩
    | some p =>
      simp only [step, hk]
      obtain ⟨s, -, hs, hgroup, hsender, hhost, hport⟩ := h.inFlight p (List.mem_of_getElem? hk)
      obtain ⟨hnone, hnot'⟩ := h.touchPeers_snd now
        ⟨s, hs, hgroup, hsender.symm, hhost.symm⟩ (hnot p.dst)
      have hroute : a.route p.senderHost p.senderPort = some s := by rw [hhost, hport, hself]
      obtain ⟨hhandle, hsends⟩ := (h.engines p.dst).handleMessage p.msg hs.symm hgroup.symm hroute
        hnone
      refine ⟨(h.drop k).afterTurn hhandle fun d hd => ?_,
        Discerning.afterTurn (c := c.drop k) hnot ?_⟩
      · rw [← (h.engines p.dst).nodeId]
        exact hsends d hd
      · rwa [GossipEngine.peers_handleMessage]
  | checkLiveness => exact hl.elim
  | lose => exact hl.elim
  | client => exact hl.elim

theorem partitioned_of_reachable (hself : ∀ i, a.route (a.host i) (a.port i) = some i)
    (hmate : ∀ i, ∃ j, j ≠ i ∧ group j = group i) {c' : Network N}
    (h : c.Partitioned id a group) (hnot : c.Discerning id a group)
    (hc : (healSystem φ a c).Reachable c') : c'.Partitioned id a group :=
  (hc.invariant (I := fun c => c.Partitioned id a group ∧ c.Discerning id a group) ⟨h, hnot⟩
    fun _ _ _ hinv hl => partitioned_step hself hmate hinv.1 hinv.2 hl.2).1

/-! ### Across the groups -/

/-- A packet from a group to another one is in flight. -/
def Crosses (group : N → G) (c : Network N) : Prop := ∃ p ∈ c.inFlight, p.Crosses group

omit [DecidableEq N] in
theorem Partitioned.not_crosses (h : c.Partitioned id a group) : ¬ c.Crosses group := by
  rintro ⟨p, hp, s, hs, hne⟩
  obtain ⟨s', hs', -, hgroup, -⟩ := h.inFlight p hp
  obtain rfl : s' = s := Option.some_inj.mp (hs'.symm.trans hs)
  exact hne hgroup

theorem crosses_afterTurn {n j : N} {r : GossipEngine × List Datagram} {d : Datagram} (hd : d ∈ r.2)
    (hroute : a.route d.host d.port = some j) (hne : group n ≠ group j) :
    (c.afterTurn a n r).Crosses group := by
  refine ⟨⟨some n, j, d.msg, a.host n, a.port n⟩, List.mem_append_right _ ?_, n, rfl, hne⟩
  exact List.mem_filterMap.mpr ⟨d, hd, by rw [hroute]; rfl⟩

/-- A heartbeat to a preferred peer, in flight. -/
def withHeartbeat (a : Addressing N) (c : Network N) (i j : N) : Network N :=
  { c with inFlight := c.inFlight ++
      [⟨some i, j, (c.engines i).message .heartbeat [], a.host i, a.port i⟩] }

theorem exists_heartbeat {p : PeerInfo} (hp : PrefersAlive (c.engines i).peers p)
    (hlead : a.Leads p j) : ∃ choice, c.step φ a (.heartbeat i choice) = c.withHeartbeat a i j := by
  obtain ⟨choice, hchoice⟩ := exists_selectRandomPeer hp
  refine ⟨choice, ?_⟩
  have hroute : a.route p.host p.port = some j := hlead
  simp only [step, Network.afterTurn, GossipEngine.heartbeat, hchoice, Function.update_eq_self,
    withHeartbeat, Addressing.packets, Option.map_some, Option.toList_some, List.filterMap_cons,
    hroute, List.filterMap_nil]

/-- The heartbeat of a mate, as it is handled. -/
def afterHeartbeat (a : Addressing N) (c : Network N) (i j : N) (now : ℕ) : Network N :=
  c.afterTurn a j ((c.engines j).handleMessage ((c.engines i).message .heartbeat []) (a.host i)
    (a.port i) now)

theorem step_deliver_withHeartbeat (now : ℕ) :
    (c.withHeartbeat a i j).step φ a (.deliver c.inFlight.length now) =
      c.afterHeartbeat a i j now := by
  have hget : (c.withHeartbeat a i j).inFlight[c.inFlight.length]? =
      some ⟨some i, j, (c.engines i).message .heartbeat [], a.host i, a.port i⟩ :=
    List.getElem?_concat_length
  have hdrop : (c.withHeartbeat a i j).drop c.inFlight.length = c := by
    rw [Network.drop, withHeartbeat, List.eraseIdx_append_of_length_le le_rfl, Nat.sub_self]
    simp
  simp only [step, hget, hdrop]
  rfl

/-- A node can hear from each of its mates. -/
theorem reaches_afterHeartbeat (h : c.Partitioned id a group) (c₀ : Network N) (hij : j ≠ i)
    (hgroup : group i = group j) (now : ℕ) :
    (healSystem φ a c₀).Reaches c (c.afterHeartbeat a i j now) := by
  obtain ⟨p, hp, hlead⟩ := (h.engines i).knows j hij
  have halive : p.isAlive := ((h.engines i).alive_iff p hp j hlead).mpr hgroup.symm
  obtain ⟨choice, hchoice⟩ := exists_heartbeat (φ := φ) ⟨hp, fun _ _ _ => halive⟩ hlead
  have hsent : (healSystem φ a c₀).Reaches c (c.withHeartbeat a i j) := by
    rw [← hchoice]
    exact .step .refl (Turn.heartbeat i choice) ⟨trivial, trivial⟩
  rw [← step_deliver_withHeartbeat (φ := φ) now]
  refine hsent.step (Turn.deliver c.inFlight.length now) ⟨?_, trivial⟩
  change _ < (c.inFlight ++ [_]).length
  rw [List.length_append]
  exact Nat.lt_succ_self _

/-- A heartbeat that brings a foreign peer back is followed by a request to this peer. -/
theorem crosses_afterHeartbeat {before after : List PeerInfo} {p : PeerInfo} {now : ℕ}
    (hpeers : (c.engines j).peers = before ++ p :: after)
    (htaken : TakenFor (c.engines i).nodeId (a.host i) before p) (hdead : ¬ p.isAlive)
    (hforeign : a.Foreign group j p) : (c.afterHeartbeat a i j now).Crosses group := by
  obtain ⟨k, hlead, hne⟩ := hforeign
  have hrevived : (touchPeers (c.engines i).nodeId (a.host i) now (c.engines j).peers).2 =
      some (p.touched (c.engines i).nodeId now) := by
    rw [hpeers, touchPeers_of_takenFor htaken, if_neg hdead]
  obtain ⟨m, hm⟩ := GossipEngine.exists_syncRequest (e := c.engines j)
    ((c.engines i).message .heartbeat []) (a.port i) hrevived
  exact crosses_afterTurn hm hlead hne.symm

/-- A node that mistakes a mate for a foreign peer calls this peer when it hears from the mate. -/
theorem exists_crosses_of_mistakable (hself : ∀ i, a.route (a.host i) (a.port i) = some i)
    (c₀ : Network N) {peers : List PeerInfo}
    (hmis : Mistakable (a.Mate id group j) (a.Foreign group j) peers)
    (h : c.Partitioned id a group) (hpeers : (c.engines j).peers = peers) :
    ∃ c', (healSystem φ a c₀).Reaches c c' ∧ c'.Crosses group := by
  -- One heartbeat for every message of a mate in the derivation.
  induction hmis generalizing c with
  | @now _ _ before after p hmate htaken hforeign =>
    obtain ⟨i, hij, hgroup, rfl, rfl⟩ := hmate
    have hp : p ∈ (c.engines j).peers := hpeers ▸ List.mem_append_right _ List.mem_cons_self
    have hdead : ¬ p.isAlive := by
      obtain ⟨k, hlead, hne⟩ := hforeign
      rwa [(h.engines j).alive_iff p hp k hlead]
    rw [← (h.engines i).nodeId] at htaken
    exact ⟨_, reaches_afterHeartbeat h c₀ hij.symm hgroup 0,
      crosses_afterHeartbeat hpeers htaken hdead hforeign⟩
  | @later _ _ before after p now hmate htaken _ ih =>
    obtain ⟨i, hij, hgroup, rfl, rfl⟩ := hmate
    have hp : p ∈ (c.engines j).peers := hpeers ▸ List.mem_append_right _ List.mem_cons_self
    obtain ⟨k, -, hlead⟩ := (h.engines j).leads p hp
    rw [← (h.engines i).nodeId] at htaken ih
    have hreach := reaches_afterHeartbeat (φ := φ) h c₀ hij.symm hgroup now
    by_cases halive : p.isAlive
    · have htouch : touchPeers (c.engines i).nodeId (a.host i) now (c.engines j).peers =
          (before ++ p.touched (c.engines i).nodeId now :: after, none) := by
        rw [hpeers, touchPeers_of_takenFor htaken, if_pos halive]
      obtain ⟨hhandle, hsends⟩ := (h.engines j).handleMessage
        ((c.engines i).message .heartbeat []) hij.symm hgroup.symm (hself i)
        (congrArg Prod.snd htouch)
      have hparted : (c.afterHeartbeat a i j now).Partitioned id a group :=
        h.afterTurn hhandle fun d hd => (h.engines j).nodeId ▸ hsends d hd
      have hrenamed : ((c.afterHeartbeat a i j now).engines j).peers =
          before ++ p.touched (c.engines i).nodeId now :: after := by
        rw [afterHeartbeat, engines_afterTurn_self, GossipEngine.peers_handleMessage]
        exact congrArg Prod.fst htouch
      obtain ⟨c', hc', hcrosses⟩ := ih hparted hrenamed
      exact ⟨c', hreach.trans hc', hcrosses⟩
    · have hne : group k ≠ group j := fun heq =>
        halive (((h.engines j).alive_iff p hp k hlead).mpr heq)
      exact ⟨_, hreach, crosses_afterHeartbeat hpeers htaken halive ⟨k, hlead, hne⟩⟩

/-- A node that is alone in its group calls the others. -/
theorem exists_crosses_of_alone (hgroups : ∃ i j, group i ≠ group j)
    (halone : ∀ j, group j = group i → j = i) (h : c.Partitioned id a group) :
    ∃ c', (healSystem φ a c).Reachable c' ∧ c'.Crosses group := by
  obtain ⟨j, hj⟩ : ∃ j, group j ≠ group i := by
    obtain ⟨k, l, hkl⟩ := hgroups
    by_cases hk : group k = group i
    · exact ⟨l, fun hl => hkl (hk.trans hl.symm)⟩
    · exact ⟨k, hk⟩
  have hji : j ≠ i := by
    rintro rfl
    exact hj rfl
  obtain ⟨p, hp, hlead⟩ := (h.engines i).knows j hji
  have hprefers : PrefersAlive (c.engines i).peers p := by
    refine ⟨hp, fun q hq halive => ?_⟩
    obtain ⟨k, hk, hlead'⟩ := (h.engines i).leads q hq
    exact absurd (halone k (((h.engines i).alive_iff q hq k hlead').mp halive)) hk
  obtain ⟨choice, hchoice⟩ := exists_heartbeat (φ := φ) hprefers hlead
  have hsent : (healSystem φ a c).Reachable (c.withHeartbeat a i j) := by
    rw [← hchoice]
    exact .step .init (Turn.heartbeat i choice) ⟨trivial, trivial⟩
  exact ⟨_, hsent, _, List.mem_append_right _ (List.mem_singleton_self _), i, rfl, hj.symm⟩

/-! ### Proper names -/

/-- Every entry has the id of its node, and no other node is reported under its host. -/
def Named (id : N → Str) (a : Addressing N) (peers : List PeerInfo) : Prop :=
  ∀ p ∈ peers, ∃ j, a.Leads p j ∧ p.nodeId = id j ∧ ∀ k, p.host = a.host k → k = j

omit [DecidableEq N] in
theorem not_mistakable_of_named (hid : Function.Injective id) {peers : List PeerInfo}
    (h : Named id a peers) : ¬ Mistakable (a.Mate id group i) (a.Foreign group i) peers := by
  intro hmis
  have hmatch {senderId senderHost : Str} {before : List PeerInfo} {p : PeerInfo} {j k : N}
      (htaken : TakenFor senderId senderHost before p) (hnode : p.nodeId = id k)
      (hhost : ∀ k', p.host = a.host k' → k' = k) (hj : id j = senderId)
      (hj' : a.host j = senderHost) : j = k := by
    obtain hname | hname := htaken.names
    · exact hid (hj.trans (hname.symm.trans hnode))
    · exact hhost j (hname.trans hj'.symm)
  induction hmis with
  | @now _ _ before after p hmate htaken hforeign =>
    obtain ⟨j, -, hgroup, hj, hj'⟩ := hmate
    obtain ⟨k, hlead, hnode, hhost⟩ := h p (List.mem_append_right _ List.mem_cons_self)
    obtain rfl := hmatch htaken hnode hhost hj hj'
    obtain ⟨l, hlead', hne⟩ := hforeign
    obtain rfl : j = l := Option.some_inj.mp (hlead.symm.trans hlead')
    exact hne hgroup
  | @later _ _ before after p now hmate htaken _ ih =>
    obtain ⟨j, -, -, hj, hj'⟩ := hmate
    refine ih fun q hq => ?_
    obtain hq | hq := List.mem_append.mp hq
    · exact h q (List.mem_append_left _ hq)
    · obtain rfl | hq := List.mem_cons.mp hq
      · obtain ⟨k, hlead, hnode, hhost⟩ := h p (List.mem_append_right _ List.mem_cons_self)
        obtain rfl := hmatch htaken hnode hhost hj hj'
        exact ⟨j, hlead, hj.symm, hhost⟩
      · exact h q (List.mem_append_right _ (List.mem_cons_of_mem _ hq))

/-- With proper names, groups of at least two nodes never hear of each other again. -/
theorem not_crosses_of_named (hself : ∀ i, a.route (a.host i) (a.port i) = some i)
    (hid : Function.Injective id) (hmate : ∀ i, ∃ j, j ≠ i ∧ group j = group i)
    (h : c.Partitioned id a group) (hnamed : ∀ i, Named id a (c.engines i).peers) {c' : Network N}
    (hc : (healSystem φ a c).Reachable c') : ¬ c'.Crosses group :=
  (partitioned_of_reachable hself hmate h (fun i => not_mistakable_of_named hid (hnamed i))
    hc).not_crosses

/-! ### When a partition heals -/

/-- **Healing.** From the state that a long partition leaves, some exchange of gossip rounds,
heartbeats and deliveries sends a message from a group to another one if and only if a node is
alone in its group or some node comes to mistake a mate for a foreign peer. -/
theorem crosses_iff (φ : GoldenRatio) (hself : ∀ i, a.route (a.host i) (a.port i) = some i)
    (hgroups : ∃ i j, group i ≠ group j) (h : c.Partitioned id a group) :
    (∃ c', (healSystem φ a c).Reachable c' ∧ c'.Crosses group) ↔
      (∃ i, ∀ j, group j = group i → j = i) ∨
        ∃ i, Mistakable (a.Mate id group i) (a.Foreign group i) (c.engines i).peers := by
  constructor
  · rintro ⟨c', hc', hcrosses⟩
    by_contra hnot
    obtain ⟨hcompany, hdiscerning⟩ := not_or.mp hnot
    have hmate (i : N) : ∃ j, j ≠ i ∧ group j = group i := by
      by_contra hnone
      refine hcompany ⟨i, fun j hj => ?_⟩
      by_contra hji
      exact hnone ⟨j, hji, hj⟩
    have hparted := partitioned_of_reachable hself hmate h (not_exists.mp hdiscerning) hc'
    exact hparted.not_crosses hcrosses
  · rintro (⟨i, halone⟩ | ⟨i, hmis⟩)
    · exact exists_crosses_of_alone hgroups halone h
    · obtain ⟨c', hc', hcrosses⟩ := exists_crosses_of_mistakable (φ := φ) hself c hmis h rfl
      exact ⟨c', Reachable.init.reaches hc', hcrosses⟩

/-! ### Two groups of two -/

/-- The ids, and the hosts, of four nodes. -/
def fourIds (i : Bool × Bool) : Str := [if i.1 then 1 else 0, if i.2 then 1 else 0]

/-- Every node is reached under its id. -/
def fourAddresses : Addressing (Bool × Bool) where
  route host _ :=
    match host with
    | [x, y] => some (x == 1, y == 1)
    | _ => none
  host := fourIds
  port _ := 7000

/-- The entry for the node `j` at the node `i`, whose group has the same first component. -/
def fourPeer (i j : Bool × Bool) : PeerInfo := ⟨fourIds j, fourIds j, 7000, j.1 == i.1, 0⟩

/-- The four nodes after the partition. -/
def fourNetwork : Network (Bool × Bool) where
  engines i := .new (fourIds i) (.new (fourIds i))
    ([(i.1, !i.2), (!i.1, i.2), (!i.1, !i.2)].map (fourPeer i)) 2000 .random
  inFlight := []

theorem route_fourIds (i : Bool × Bool) (port : ℕ) :
    fourAddresses.route (fourIds i) port = some i := by
  obtain ⟨_ | _, _ | _⟩ := i <;> rfl

theorem injective_fourIds : Function.Injective fourIds := fun i j h =>
  Option.some_inj.mp ((route_fourIds i 0).symm.trans (h ▸ route_fourIds j 0))

theorem leads_fourPeer {i j k : Bool × Bool} : fourAddresses.Leads (fourPeer i j) k ↔ j = k := by
  have hroute : fourAddresses.route (fourPeer i j).host (fourPeer i j).port = some j :=
    route_fourIds j 7000
  rw [Addressing.Leads, hroute, Option.some_inj]

theorem mem_fourNetwork {i : Bool × Bool} {p : PeerInfo} :
    p ∈ (fourNetwork.engines i).peers ↔ ∃ j, j ≠ i ∧ fourPeer i j = p := by
  have hothers (j : Bool × Bool) : j ∈ [(i.1, !i.2), (!i.1, i.2), (!i.1, !i.2)] ↔ j ≠ i := by
    obtain ⟨_ | _, _ | _⟩ := i <;> obtain ⟨_ | _, _ | _⟩ := j <;> simp
  change p ∈ List.map _ _ ↔ _
  simp only [List.mem_map, hothers]

theorem partitioned_fourNetwork : fourNetwork.Partitioned fourIds fourAddresses Prod.fst where
  engines i := by
    refine ⟨rfl, GossipStrategy.noConfusion, Nat.zero_lt_succ _, fun p hp => ?_, fun j hj => ?_,
      fun p hp j hj => ?_⟩
    · obtain ⟨j, hj, rfl⟩ := mem_fourNetwork.mp hp
      exact ⟨j, hj, leads_fourPeer.mpr rfl⟩
    · exact ⟨fourPeer i j, mem_fourNetwork.mpr ⟨j, hj, rfl⟩, leads_fourPeer.mpr rfl⟩
    · obtain ⟨k, -, rfl⟩ := mem_fourNetwork.mp hp
      obtain rfl := leads_fourPeer.mp hj
      exact beq_iff_eq
  inFlight p hp := absurd hp List.not_mem_nil

theorem named_fourNetwork (i : Bool × Bool) :
    Named fourIds fourAddresses (fourNetwork.engines i).peers := by
  intro p hp
  obtain ⟨j, -, rfl⟩ := mem_fourNetwork.mp hp
  exact ⟨j, leads_fourPeer.mpr rfl, rfl, fun k hk => injective_fourIds hk.symm⟩

theorem crosses_iff_four :
    (∃ c, (healSystem .exact fourAddresses fourNetwork).Reachable c ∧ c.Crosses Prod.fst) ↔
      (∃ i : Bool × Bool, ∀ j : Bool × Bool, j.1 = i.1 → j = i) ∨
        ∃ i : Bool × Bool, Mistakable (fourAddresses.Mate fourIds Prod.fst i)
          (fourAddresses.Foreign Prod.fst i) (fourNetwork.engines i).peers :=
  crosses_iff .exact (fun i => route_fourIds i 7000)
    ⟨(true, true), (false, true), Bool.false_ne_true.symm⟩ partitioned_fourNetwork

/-- Two groups of two nodes with distinct ids and hosts do not heal. -/
theorem not_crosses_four : (∃ i j : Bool × Bool, i.1 ≠ j.1) ∧
    fourNetwork.Partitioned fourIds fourAddresses Prod.fst ∧
    ¬ ∃ c, (healSystem .exact fourAddresses fourNetwork).Reachable c ∧ c.Crosses Prod.fst := by
  refine ⟨⟨(true, true), (false, true), Bool.false_ne_true.symm⟩, partitioned_fourNetwork,
    fun ⟨c, hc, hcrosses⟩ => ?_⟩
  have hmate (i : Bool × Bool) : ∃ j : Bool × Bool, j ≠ i ∧ j.1 = i.1 :=
    ⟨(i.1, !i.2), fun h => Bool.not_ne_self i.2 (congrArg Prod.snd h), rfl⟩
  exact not_crosses_of_named (fun i => route_fourIds i 7000) injective_fourIds hmate
    partitioned_fourNetwork named_fourNetwork hc hcrosses

end Network

end Convergence
