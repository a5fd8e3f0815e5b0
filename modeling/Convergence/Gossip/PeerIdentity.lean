import Convergence.Gossip.Node
import Convergence.Gossip.Partition

/-!
# Whose message it is

A message comes with the id of its sender in it and the sender's host and port from the network.
`handle_message` takes the first entry of the peer table that has the id or the host for the
sender's entry, and never looks at the port. The entry is the right one as long as no entry in front
of it shares the host of the sender or carries its id; then messages touch their senders' entries,
and a node learns the ids of its peers.

## Main definitions

* `PeerInfo.address`, `Receipt.sender`.
* `Recognised`: no other entry is taken for the sender's.
* `GossipEngine.TouchesSender`: handling a message touches the sender's entry and no other.
* `hearingSystem`: the runs of a node that hears messages with true sender ids.

## Main results

* `touchPeers_eq_map_iff`.
* `learns_of_recognised`.
-/

namespace Convergence

open TransitionSystem

/-- Where an entry of the peer table leads. -/
def PeerInfo.address (p : PeerInfo) : Str × ℕ := (p.host, p.port)

/-- Where a message comes from. -/
def Receipt.sender (r : Receipt) : Str × ℕ := (r.senderHost, r.senderPort)

/-- No entry in front of the one with the sender's address, and none at all if there is no such
entry, has the sender's id or host. -/
def Recognised (senderId : Str) (sender : Str × ℕ) : List PeerInfo → Prop
  | [] => True
  | p :: peers => p.address = sender ∨
      ¬ (p.nodeId = senderId ∨ p.host = sender.1) ∧ Recognised senderId sender peers

/-- The table in which the entry with the sender's address has been touched. -/
def touchSender (senderId : Str) (sender : Str × ℕ) (now : ℕ) (peers : List PeerInfo) :
    List PeerInfo :=
  peers.map fun p => if p.address = sender then p.touched senderId now else p

section Touch

variable {senderId : Str} {sender : Str × ℕ} {now : ℕ} {peers : List PeerInfo}

theorem touchSender_of_notMem (h : sender ∉ peers.map PeerInfo.address) :
    touchSender senderId sender now peers = peers :=
  (List.map_congr_left fun p hp => if_neg fun heq => h (List.mem_map.mpr ⟨p, hp, heq⟩)).trans
    (List.map_id peers)

/-- A sender that is recognised has its entry touched, and a peer that comes back is the sender. -/
theorem touchPeers_of_recognised (h : Recognised senderId sender peers)
    (hnd : (peers.map PeerInfo.address).Nodup) :
    (touchPeers senderId sender.1 now peers).1 = touchSender senderId sender now peers ∧
      ∀ p, (touchPeers senderId sender.1 now peers).2 = some p → p.address = sender := by
  induction peers with
  | nil => exact ⟨rfl, fun p hp => by cases hp⟩
  | cons p peers ih =>
    obtain ⟨hnot, hnd⟩ := List.nodup_cons.mp hnd
    rw [touchPeers, touchSender, List.map_cons]
    rcases h with hown | ⟨hother, hrest⟩
    · have hmatch : p.nodeId = senderId ∨ p.host = sender.1 := Or.inr (congrArg Prod.fst hown)
      rw [if_pos hmatch, if_pos hown]
      have htail : touchSender senderId sender now peers = peers :=
        touchSender_of_notMem (hown ▸ hnot)
      refine ⟨congrArg (List.cons _) htail.symm, fun q hq => ?_⟩
      dsimp only at hq
      split_ifs at hq
      obtain rfl := Option.some.inj hq
      exact hown
    · have hne : p.address ≠ sender := fun heq => hother (Or.inr (congrArg Prod.fst heq))
      obtain ⟨htable, hrevived⟩ := ih hrest hnd
      rw [if_neg hother, if_neg hne]
      exact ⟨congrArg (List.cons p) htable, hrevived⟩

/-- Where the clock has moved on, the sender's entry and no other is touched only if the sender is
recognised. -/
theorem touchPeers_eq_map_iff (hnd : (peers.map PeerInfo.address).Nodup)
    (hnow : ∀ p ∈ peers, p.lastHeard ≠ now) :
    (touchPeers senderId sender.1 now peers).1 = touchSender senderId sender now peers ↔
      Recognised senderId sender peers := by
  refine ⟨fun h => ?_, fun h => (touchPeers_of_recognised h hnd).1⟩
  induction peers with
  | nil => trivial
  | cons p peers ih =>
    rw [touchPeers, touchSender, List.map_cons] at h
    by_cases hown : p.address = sender
    · exact Or.inl hown
    · rw [if_neg hown] at h
      by_cases hmatch : p.nodeId = senderId ∨ p.host = sender.1
      · rw [if_pos hmatch] at h
        have hheard := congrArg PeerInfo.lastHeard (List.cons.inj h).1
        exact absurd hheard.symm (hnow p List.mem_cons_self)
      · rw [if_neg hmatch] at h
        exact Or.inr ⟨hmatch, ih (List.nodup_cons.mp hnd).2
          (fun q hq => hnow q (List.mem_cons_of_mem p hq)) (List.cons.inj h).2⟩

end Touch

/-! ### One message -/

/-- The message `r` touches the entry at its sender's address and no other, and a request that it
triggers goes to this address. -/
structure GossipEngine.TouchesSender (e : GossipEngine) (r : Receipt) : Prop where
  table : (e.handleMessage r.msg r.senderHost r.senderPort r.now).1.peers =
    touchSender r.msg.senderId r.sender r.now e.peers
  request : ∀ d ∈ (e.handleMessage r.msg r.senderHost r.senderPort r.now).2,
    d.msg.type = .antiEntropyReq → (d.host, d.port) = r.sender

theorem GossipEngine.touchesSender_of_recognised {e : GossipEngine} {r : Receipt}
    (h : Recognised r.msg.senderId r.sender e.peers)
    (hnd : (e.peers.map PeerInfo.address).Nodup) : e.TouchesSender r := by
  obtain ⟨htable, hrevived⟩ := @touchPeers_of_recognised _ _ r.now _ h hnd
  refine ⟨?_, fun d hd _ => ?_⟩
  · rw [peers_handleMessage]
    exact htable
  · rcases List.mem_append.mp hd with hd | hd
    · rw [syncRequest, Option.mem_toList, Option.map_eq_some_iff] at hd
      obtain ⟨p, hp, rfl⟩ := hd
      exact hrevived p hp
    · obtain ⟨m, -, rfl⟩ := List.mem_map.mp hd
      rfl

/-! ### Runs -/

/-- A message carries the id of the node at the address that it comes from. -/
def NodeTurn.Truthful (trueId : Str × ℕ → Str) : NodeTurn → Prop
  | receive r => r.msg.senderId = trueId r.sender
  | _ => True

/-- The sender of a message is recognised. -/
def NodeTurn.Recognised (e : GossipEngine) : NodeTurn → Prop
  | receive r => Convergence.Recognised r.msg.senderId r.sender e.peers
  | _ => True

/-- A message touches the entry of its sender and no other. -/
def NodeTurn.TouchesSender (e : GossipEngine) : NodeTurn → Prop
  | receive r => e.TouchesSender r
  | _ => True

/-- The clock has moved on since any peer was heard from. -/
def NodeTurn.Fresh (e : GossipEngine) : NodeTurn → Prop
  | receive r => ∀ p ∈ e.peers, p.lastHeard ≠ r.now
  | _ => True

/-- There is a message from the address among the turns. -/
def Heard (turns : List NodeTurn) (a : Str × ℕ) : Prop :=
  ∃ r, NodeTurn.receive r ∈ turns ∧ r.sender = a

/-- The runs of a node whose messages carry their true senders' ids. -/
def hearingSystem (φ : GoldenRatio) (trueId : Str × ℕ → Str) (e : GossipEngine) :
    TransitionSystem (GossipEngine × List Datagram) NodeTurn :=
  (nodeSystem φ e).restrict fun _ l => l.Truthful trueId

section Runs

variable {φ : GoldenRatio} {trueId : Str × ℕ → Str} {e : GossipEngine}
  {s : GossipEngine × List Datagram} {turns : List NodeTurn}

theorem peers_doGossipRound (e : GossipEngine) (choice : ℕ) :
    (e.doGossipRound φ choice).1.peers = e.peers := by
  rw [GossipEngine.doGossipRound, GossipEngine.selectPeer_fst]

/-- A turn that is not a receipt changes at most who is alive. -/
theorem NodeTurn.run_cases (φ : GoldenRatio) (e : GossipEngine) (l : NodeTurn) :
    (∃ r, l = receive r) ∨ (∀ r, l ≠ receive r) ∧ ∃ f : PeerInfo → PeerInfo,
      (l.run φ e).1.peers = e.peers.map f ∧
        ∀ p, (f p).address = p.address ∧ (f p).nodeId = p.nodeId := by
  cases l with
  | client call =>
    exact Or.inr ⟨nofun, id, (List.map_id _).symm, fun _ => ⟨rfl, rfl⟩⟩
  | gossipRound choice =>
    refine Or.inr ⟨nofun, id, ?_, fun _ => ⟨rfl, rfl⟩⟩
    rw [List.map_id]
    exact peers_doGossipRound e choice
  | checkLiveness now =>
    refine Or.inr ⟨nofun, _, rfl, fun p => ?_⟩
    split_ifs <;> exact ⟨rfl, rfl⟩
  | receive r => exact Or.inl ⟨r, rfl⟩

/-- Addresses never change. -/
theorem map_address_step (φ : GoldenRatio) (e : GossipEngine) (l : NodeTurn) :
    (l.run φ e).1.peers.map PeerInfo.address = e.peers.map PeerInfo.address := by
  obtain ⟨r, rfl⟩ | ⟨-, f, hpeers, hf⟩ := l.run_cases φ e
  · rw [NodeTurn.run, GossipEngine.peers_handleMessage]
    exact GossipEngine.map_address_touchPeers _ _
  · rw [hpeers, List.map_map]
    exact List.map_congr_left fun p _ => (hf p).1

theorem map_address_run (hls : (hearingSystem φ trueId e).Enables s turns) :
    ((hearingSystem φ trueId e).run s turns).1.peers.map PeerInfo.address =
      s.1.peers.map PeerInfo.address :=
  hls.run_invariant (I := fun s' => s'.1.peers.map PeerInfo.address =
    s.1.peers.map PeerInfo.address) rfl fun s' l h _ => (map_address_step φ s'.1 l).trans h

/-- Messages of recognised senders touch their senders' entries. -/
theorem touchesSender_run (hnd : (s.1.peers.map PeerInfo.address).Nodup)
    (hls : (hearingSystem φ trueId e).Enables s turns)
    (h : (hearingSystem φ trueId e).Guarded (fun s l => l.Recognised s.1) s turns) :
    (hearingSystem φ trueId e).Guarded (fun s l => l.TouchesSender s.1) s turns := by
  refine h.imp (I := fun s => (s.1.peers.map PeerInfo.address).Nodup) hls hnd ?_ ?_
  · intro s l hnd _
    rw [hearingSystem, restrict]
    exact (map_address_step φ s.1 l).symm ▸ hnd
  · intro s l hnd _ hrec
    cases l with
    | receive r => exact GossipEngine.touchesSender_of_recognised hrec hnd
    | client call => trivial
    | gossipRound choice => trivial
    | checkLiveness now => trivial

/-- The entries of the peers in `heard` carry their true ids. -/
def KnowsIds (trueId : Str × ℕ → Str) (heard : Set (Str × ℕ)) (peers : List PeerInfo) : Prop :=
  ∀ p ∈ peers, p.address ∈ heard → p.nodeId = trueId p.address

/-- A recognised message adds its sender. -/
theorem KnowsIds.receive {heard : Set (Str × ℕ)} {r : Receipt} (h : KnowsIds trueId heard e.peers)
    (htrue : r.msg.senderId = trueId r.sender) (ht : e.TouchesSender r) :
    KnowsIds trueId (insert r.sender heard)
      (e.handleMessage r.msg r.senderHost r.senderPort r.now).1.peers := by
  rw [ht.table]
  intro q hq hheard
  obtain ⟨p, hp, rfl⟩ := List.mem_map.mp hq
  split_ifs at hheard ⊢ with hown
  · exact htrue.trans (congrArg trueId hown.symm)
  · exact h p hp (hheard.resolve_left hown)

/-- A turn that is not a receipt leaves the ids alone. -/
theorem KnowsIds.map {heard : Set (Str × ℕ)} {peers : List PeerInfo} {f : PeerInfo → PeerInfo}
    (h : KnowsIds trueId heard peers)
    (hf : ∀ p, (f p).address = p.address ∧ (f p).nodeId = p.nodeId) :
    KnowsIds trueId heard (peers.map f) := by
  intro q hq hheard
  obtain ⟨p, hp, rfl⟩ := List.mem_map.mp hq
  rw [(hf p).1] at hheard ⊢
  rw [(hf p).2]
  exact h p hp hheard

theorem KnowsIds.run {heard : Set (Str × ℕ)} (h : KnowsIds trueId heard s.1.peers)
    (hls : (hearingSystem φ trueId e).Enables s turns)
    (ht : (hearingSystem φ trueId e).Guarded (fun s l => l.TouchesSender s.1) s turns) :
    KnowsIds trueId (heard ∪ {a | Heard turns a})
      ((hearingSystem φ trueId e).run s turns).1.peers := by
  induction turns generalizing s heard with
  | nil =>
    intro p hp hheard
    refine h p hp (hheard.resolve_right ?_)
    rintro ⟨r, hr, -⟩
    exact absurd hr List.not_mem_nil
  | cons l turns ih =>
    obtain ⟨⟨_, htrue⟩, hrest⟩ := hls
    obtain ⟨htouch, htrest⟩ := ht
    intro p hp hheard
    obtain ⟨r, rfl⟩ | ⟨hl, f, hpeers, hf⟩ := l.run_cases φ s.1
    · refine ih (s := ((hearingSystem φ trueId e).step s (.receive r)))
        (h.receive htrue htouch) hrest htrest p hp ?_
      rcases hheard with hold | ⟨r', hr', hsender⟩
      · exact Or.inl (Or.inr hold)
      · rcases List.mem_cons.mp hr' with heq | hr'
        · obtain rfl := NodeTurn.receive.inj heq
          exact Or.inl (Or.inl hsender.symm)
        · exact Or.inr ⟨r', hr', hsender⟩
    · have hstep : KnowsIds trueId heard (l.run φ s.1).1.peers := hpeers ▸ h.map hf
      refine ih (s := ((hearingSystem φ trueId e).step s l)) hstep hrest htrest p hp
        (hheard.imp_right ?_)
      rintro ⟨r, hr, hsender⟩
      exact ⟨r, (List.mem_cons.mp hr).resolve_left fun heq => hl r heq.symm, hsender⟩

/-- If all messages touch their senders' entries, though the clock has moved on whenever a message
comes, then all senders were recognised. -/
theorem recognised_run (hnd : (s.1.peers.map PeerInfo.address).Nodup)
    (hls : (hearingSystem φ trueId e).Enables s turns)
    (hfresh : (hearingSystem φ trueId e).Guarded (fun s l => l.Fresh s.1) s turns)
    (h : (hearingSystem φ trueId e).Guarded (fun s l => l.TouchesSender s.1) s turns) :
    (hearingSystem φ trueId e).Guarded (fun s l => l.Recognised s.1) s turns := by
  refine (hfresh.and h).imp (I := fun s => (s.1.peers.map PeerInfo.address).Nodup) hls hnd ?_ ?_
  · intro s l hnd _
    exact (map_address_step φ s.1 l).symm ▸ hnd
  · rintro s l hnd - ⟨hnow, htouch⟩
    cases l with
    | receive r =>
      have htable := htouch.table
      rw [GossipEngine.peers_handleMessage] at htable
      exact (touchPeers_eq_map_iff hnd hnow).mp htable
    | client call => trivial
    | gossipRound choice => trivial
    | checkLiveness now => trivial

/-- As long as senders are recognised, a message touches the entry of its sender and no other, and a
request that it triggers goes to the sender; and once all peers have been heard from, their entries
carry their ids. Where a sender is not recognised, another entry is touched. -/
theorem learns_of_recognised (haddr : (e.peers.map PeerInfo.address).Nodup)
    (hinj : ∀ p ∈ e.peers, ∀ q ∈ e.peers, trueId p.address = trueId q.address →
      p.address = q.address)
    (hls : (hearingSystem φ trueId e).Enables (e, []) turns) :
    ((hearingSystem φ trueId e).Guarded (fun s l => l.Recognised s.1) (e, []) turns →
      (hearingSystem φ trueId e).Guarded (fun s l => l.TouchesSender s.1) (e, []) turns ∧
      ((∀ p ∈ e.peers, Heard turns p.address) →
        ((hearingSystem φ trueId e).run (e, []) turns).1.peers.map PeerInfo.nodeId =
            e.peers.map (fun p => trueId p.address) ∧
          (((hearingSystem φ trueId e).run (e, []) turns).1.peers.map PeerInfo.nodeId).Nodup)) ∧
    ((hearingSystem φ trueId e).Guarded (fun s l => l.Fresh s.1) (e, []) turns →
      (hearingSystem φ trueId e).Guarded (fun s l => l.TouchesSender s.1) (e, []) turns →
      (hearingSystem φ trueId e).Guarded (fun s l => l.Recognised s.1) (e, []) turns) := by
  refine ⟨fun hrec => ?_, recognised_run haddr hls⟩
  have htouch := touchesSender_run haddr hls hrec
  refine ⟨htouch, fun hheard => ?_⟩
  have hsame := map_address_run hls
  have hknows : KnowsIds trueId (∅ ∪ {a | Heard turns a})
      ((hearingSystem φ trueId e).run (e, []) turns).1.peers :=
    KnowsIds.run (fun _ _ h => absurd h (Set.notMem_empty _)) hls htouch
  have hids : ((hearingSystem φ trueId e).run (e, []) turns).1.peers.map PeerInfo.nodeId =
      e.peers.map fun p => trueId p.address :=
    calc ((hearingSystem φ trueId e).run (e, []) turns).1.peers.map PeerInfo.nodeId
        = ((hearingSystem φ trueId e).run (e, []) turns).1.peers.map
            (trueId ∘ PeerInfo.address) := by
          refine List.map_congr_left fun p hp => hknows p hp (Or.inr ?_)
          have hmem := List.mem_map_of_mem (f := PeerInfo.address) hp
          rw [hsame] at hmem
          obtain ⟨q, hq, hqp⟩ := List.mem_map.mp hmem
          exact hqp ▸ hheard q hq
      _ = (e.peers.map PeerInfo.address).map trueId := by rw [← List.map_map, hsame]
      _ = e.peers.map fun p => trueId p.address := List.map_map
  refine ⟨hids, hids ▸ ?_⟩
  have hnd : ((e.peers.map PeerInfo.address).map trueId).Nodup := by
    refine haddr.map_on ?_
    intro a ha b hb hab
    obtain ⟨p, hp, rfl⟩ := List.mem_map.mp ha
    obtain ⟨q, hq, rfl⟩ := List.mem_map.mp hb
    exact hinj p hp q hq hab
  rwa [List.map_map] at hnd

end Runs

/-! ### Two peers -/

/-- `127.0.0.1` for the digit `1`. -/
def loopback (digit : UInt8) : Str := [49, 50, 55, 46, 48, 46, 48, 46, digit]

/-- Ids by port: `a` at the port 7000, `b` elsewhere. -/
def idByPort (sender : Str × ℕ) : Str := if sender.2 = 7000 then [97] else [98]

/-- A heartbeat from an address. -/
def heartbeatFrom (sender : Str × ℕ) (now : ℕ) : NodeTurn :=
  .receive ⟨⟨.heartbeat, idByPort sender, .new (idByPort sender), []⟩, sender.1, sender.2, now⟩

/-- A node as `main` starts it, with peers at two addresses. -/
def nodeWith (a b : Str × ℕ) : GossipEngine :=
  .new [99] (.new [99]) [⟨a.1, a.1, a.2, true, 0⟩, ⟨b.1, b.1, b.2, true, 0⟩] 2000 .random

/-- Two peers on hosts of their own have been heard from. -/
theorem learns_of_recognised_twoHosts :
    ((hearingSystem .exact idByPort (nodeWith (loopback 49, 7000) (loopback 50, 7001))).run
      (nodeWith (loopback 49, 7000) (loopback 50, 7001), [])
      [heartbeatFrom (loopback 50, 7001) 1, heartbeatFrom (loopback 49, 7000) 2]).1.peers.map
        PeerInfo.nodeId = [[97], [98]] := by
  refine ((@learns_of_recognised .exact idByPort (nodeWith (loopback 49, 7000) (loopback 50, 7001))
    [heartbeatFrom (loopback 50, 7001) 1, heartbeatFrom (loopback 49, 7000) 2]
    (by decide) (by decide) ⟨⟨trivial, rfl⟩, ⟨trivial, rfl⟩, trivial⟩).1
    ⟨Or.inr ⟨by decide, Or.inl rfl⟩, Or.inl rfl, trivial⟩).2 ?_ |>.1
  intro p hp
  rcases List.mem_cons.mp hp with rfl | hp
  · exact ⟨_, List.mem_cons_of_mem _ (List.mem_singleton_self _), rfl⟩
  · obtain rfl := List.mem_singleton.mp hp
    exact ⟨_, List.mem_cons_self, rfl⟩

/-- A message of the second of two peers on one host touches the entry of the first one. -/
theorem not_touchesSender_sharedHost :
    ((nodeWith (loopback 49, 7000) (loopback 49, 7001)).peers.map PeerInfo.address).Nodup ∧
      (hearingSystem .exact idByPort (nodeWith (loopback 49, 7000) (loopback 49, 7001))).Enables
        (nodeWith (loopback 49, 7000) (loopback 49, 7001), [])
        [heartbeatFrom (loopback 49, 7001) 1] ∧
      ¬ (hearingSystem .exact idByPort (nodeWith (loopback 49, 7000) (loopback 49, 7001))).Guarded
        (fun s l => l.TouchesSender s.1) (nodeWith (loopback 49, 7000) (loopback 49, 7001), [])
        [heartbeatFrom (loopback 49, 7001) 1] := by
  refine ⟨by decide, ⟨⟨trivial, rfl⟩, trivial⟩, fun h => ?_⟩
  have htable := h.1.table
  revert htable
  decide

end Convergence
