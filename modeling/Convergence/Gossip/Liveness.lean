import Convergence.Gossip.RoundStrategies
import Convergence.Library.TimeoutDetector

/-!
# Which peers a node holds to be alive

The peer table is a failure detector: for every entry, messages of the peer are what is heard of it,
and the liveness checks of the gossip thread are the checks. As long as the entries tell the nodes
apart, an entry goes through the states of the detector for its node, whatever the other threads and
nodes do in between, and a node asks for the log of a peer that comes back exactly when it had given
the peer up.

## Main definitions

* `Addressing.Identifies`: an entry by which the messages of one node are recognised.
* `ThreadedNetwork.sights`: what a node sees of another one in a step.
* `PeerInfo.watch`, `watchSystem`: the state of the detector in an entry.

## Main results

* `ThreadedNetwork.refines_watch`: every entry is a detector.
* `ThreadedNetwork.isAlive_iff`.
-/

namespace Convergence

open TransitionSystem TimeoutDetector

variable {N : Type*}

/-- Messages of the node `k`, and of no other one, are taken to come from the entry. -/
structure Addressing.Identifies (a : Addressing N) (id : N → Str) (p : PeerInfo) (k : N) :
    Prop where
  own : p.nodeId = id k ∨ p.host = a.host k
  others : ∀ j, p.nodeId = id j ∨ p.host = a.host j → j = k

namespace Addressing.Identifies

variable {a : Addressing N} {id : N → Str} {p : PeerInfo} {j k : N} {now : ℕ}

theorem iff_eq (h : a.Identifies id p k) : p.nodeId = id j ∨ p.host = a.host j ↔ j = k :=
  ⟨h.others j, fun hjk => hjk ▸ h.own⟩

/-- A message of the node leaves the entry to it. -/
theorem touched (hid : Function.Injective id) (h : a.Identifies id p k) :
    a.Identifies id (p.touched (id k) now) k where
  own := Or.inl rfl
  others j hj := hj.elim (fun heq => (hid heq).symm) fun hhost => h.others j (Or.inr hhost)

theorem withAlive (h : a.Identifies id p k) (alive : Bool) :
    a.Identifies id { p with isAlive := alive } k := ⟨h.own, h.others⟩

end Addressing.Identifies

section Touch

variable {a : Addressing N} {id : N → Str} {peers : List PeerInfo} {ks : List N} {j k : N}
  {now i : ℕ} {p : PeerInfo}

theorem forall₂_touchPeers (hid : Function.Injective id)
    (h : List.Forall₂ (a.Identifies id) peers ks) (j : N) (now : ℕ) :
    List.Forall₂ (a.Identifies id) (touchPeers (id j) (a.host j) now peers).1 ks := by
  induction h with
  | nil => exact .nil
  | cons hp hrest ih =>
    rw [touchPeers]
    split
    case isTrue hmatch =>
      obtain rfl := hp.iff_eq.mp hmatch
      exact .cons (hp.touched hid) hrest
    case isFalse => exact .cons hp ih

/-- A message touches the entry of its sender, and this one comes back if it was marked dead. -/
theorem touchPeers_getElem? [DecidableEq N] (h : List.Forall₂ (a.Identifies id) peers ks)
    (hks : ks.Nodup) (hp : peers[i]? = some p) (hk : ks[i]? = some k) (j : N) (now : ℕ) :
    (touchPeers (id j) (a.host j) now peers).1[i]? =
        some (if k = j then p.touched (id j) now else p) ∧
      (k = j → (touchPeers (id j) (a.host j) now peers).2 =
        if p.isAlive then none else some (p.touched (id j) now)) := by
  induction h generalizing i with
  | nil => cases hp
  | @cons q k' peers ks hq hrest ih =>
    obtain ⟨hnotin, hnd⟩ := List.nodup_cons.mp hks
    rw [touchPeers]
    by_cases hmatch : q.nodeId = id j ∨ q.host = a.host j
    · obtain rfl := hq.iff_eq.mp hmatch
      rw [if_pos hmatch]
      cases i with
      | zero =>
        obtain rfl := Option.some.inj hp
        obtain rfl := Option.some.inj hk
        exact ⟨by rw [if_pos rfl]; rfl, fun _ => rfl⟩
      | succ i =>
        have hne : k ≠ j := fun heq => hnotin (heq ▸ List.mem_of_getElem? hk)
        exact ⟨by rw [if_neg hne]; exact hp, fun heq => absurd heq hne⟩
    · rw [if_neg hmatch]
      cases i with
      | zero =>
        obtain rfl := Option.some.inj hp
        obtain rfl := Option.some.inj hk
        have hne : k' ≠ j := fun heq => hmatch (hq.iff_eq.mpr heq.symm)
        exact ⟨by rw [if_neg hne]; rfl, fun heq => absurd heq hne⟩
      | succ i => exact ih hnd hp hk

end Touch

/-! ### The detector in an entry -/

/-- The state of the detector that an entry is. -/
def PeerInfo.watch (p : PeerInfo) : Watch := ⟨p.isAlive, p.lastHeard⟩

/-- The runs of a detector. -/
def watchSystem (timeout : ℤ) (w : Watch) : TransitionSystem Watch Sight where
  init := w
  enabled _ _ := True
  step := .see timeout

theorem enables_watchSystem (timeout : ℤ) (w₀ w : Watch) (seen : List Sight) :
    (watchSystem timeout w₀).Enables w seen := by
  induction seen generalizing w with
  | nil => trivial
  | cons x seen ih => exact ⟨trivial, ih _⟩

/-- A check of an entry. -/
theorem watch_checkLiveness {e : GossipEngine} {i now : ℕ} {p : PeerInfo}
    (hp : e.peers[i]? = some p) : ∃ p', (e.checkLiveness now).peers[i]? = some p' ∧
      p'.watch = p.watch.see e.peerTimeoutMs (.check now) := by
  have hmap : (e.checkLiveness now).peers[i]? =
      some (if e.peerTimeoutMs < now - p.lastHeard ∧ p.isAlive then { p with isAlive := false }
        else p) := by
    rw [GossipEngine.checkLiveness, List.getElem?_map, hp]
    rfl
  refine ⟨_, hmap, ?_⟩
  by_cases hlate : e.peerTimeoutMs < now - p.lastHeard ∧ p.isAlive
  · rw [if_pos hlate]
    exact (if_pos hlate).symm
  · rw [if_neg hlate]
    exact (if_neg hlate).symm

theorem GossipEngine.forall₂_checkLiveness {a : Addressing N} {id : N → Str} {e : GossipEngine}
    {ks : List N} (h : List.Forall₂ (a.Identifies id) e.peers ks) (now : ℕ) :
    List.Forall₂ (a.Identifies id) (e.checkLiveness now).peers ks := by
  rw [checkLiveness, List.forall₂_map_left_iff]
  refine h.imp fun p k hp => ?_
  split_ifs
  · exact hp.withAlive false
  · exact hp

namespace ThreadedNetwork

variable [DecidableEq N] {id : N → Str} {a : Addressing N} {φ : GoldenRatio}
  {s s₀ : ThreadedNetwork N} {ks : N → List N} {k n : N} {l : ThreadTurn N}
  {ls : List (ThreadTurn N)} {i : ℕ}

/-- What the node `n` sees of the node `k` in a step. -/
def sights (n k : N) (s : ThreadedNetwork N) : ThreadTurn N → List Sight
  | .act m (.checkLiveness now) => if m = n then [.check now] else []
  | .act _ _ => []
  | .deliver i now =>
    match s.sent[i]? with
    | some p => if p.dst = n ∧ p.src = some k then [.heard now] else []
    | none => []

/-- The entries of every node are about the nodes that are listed for it, and every packet carries
the id and the host of its sender. -/
structure Recognises (id : N → Str) (a : Addressing N) (ks : N → List N) (s : ThreadedNetwork N) :
    Prop where
  nodeId : ∀ n, (s.nodes n).engine.nodeId = id n
  peers : ∀ n, List.Forall₂ (a.Identifies id) (s.nodes n).engine.peers (ks n)
  packets : ∀ p ∈ s.sent, ∃ j, p.src = some j ∧ p.msg.senderId = id j ∧ p.senderHost = a.host j

theorem Recognises.step (hid : Function.Injective id) (h : s.Recognises id a ks)
    (hl : s.CanTake l) : (s.step φ a l).Recognises id a ks := by
  obtain ⟨n, action, -, hstep, hlabel⟩ := exists_act φ a hl
  have hpeers : List.Forall₂ (a.Identifies id) ((s.nodes n).step φ action).1.engine.peers
      (ks n) := by
    have hmoves := (s.nodes n).engineMoves φ action
    generalize ((s.nodes n).step φ action).1.engine = e at hmoves
    cases hmoves with
    | chooses choice =>
      rw [GossipEngine.selectPeer_fst]
      exact h.peers n
    | touches r =>
      obtain ⟨p, hp, now, -, heq⟩ | rfl := hlabel
      · obtain rfl := ThreadAction.receive.inj heq
        obtain ⟨j, -, hj, hhost⟩ := h.packets p hp
        rw [receipt, hj, hhost]
        exact forall₂_touchPeers hid (h.peers n) j now
      · exact hl.elim
    | checks now => exact GossipEngine.forall₂_checkLiveness (h.peers n) now
    | keeps => exact h.peers n
  rw [hstep]
  constructor
  · exact forall_nodes_afterStep (I := fun m t => t.engine.nodeId = id m) (fun m _ => h.nodeId m)
      (((s.nodes n).setUpAs_step φ action).nodeId.trans (h.nodeId n))
  · exact forall_nodes_afterStep (I := fun m t => List.Forall₂ (a.Identifies id) t.engine.peers
      (ks m)) (fun m _ => h.peers m) hpeers
  · intro p hp
    rcases List.mem_append.mp hp with hp | hp
    · exact h.packets p hp
    · obtain ⟨d, hd, -, heq⟩ := Addressing.mem_packets hp
      rw [heq]
      exact ⟨n, rfl, (EngineThreads.senderId_step hd).trans (h.nodeId n), rfl⟩

/-- The entry `i` of the node `n` holds the state `w` of a detector. -/
def Holds (n : N) (i : ℕ) (timeout : ℤ) (s : ThreadedNetwork N) (w : Watch) : Prop :=
  (s.nodes n).engine.peerTimeoutMs = timeout ∧
    ∃ p, (s.nodes n).engine.peers[i]? = some p ∧ p.watch = w

/-- What a step of the node itself makes of an entry. -/
theorem Holds.act {timeout : ℤ} {w : Watch} (h : s.Holds n i timeout w) {action : ThreadAction}
    (hreceive : ∀ r, action ≠ .receive r) :
    (s.afterStep a n ((s.nodes n).step φ action)).Holds n i timeout
      ((sights n k s (.act n action)).foldl (Watch.see timeout) w) := by
  obtain ⟨rfl, p, hp, rfl⟩ := h
  rw [Holds, nodes_afterStep_self]
  by_cases hcheck : ∃ now, action = .checkLiveness now
  · obtain ⟨now, rfl⟩ := hcheck
    rw [sights, if_pos rfl]
    exact ⟨rfl, watch_checkLiveness hp⟩
  · have hnone : sights n k s (.act n action) = [] := by
      cases action with
      | checkLiveness now => exact absurd ⟨now, rfl⟩ hcheck
      | _ => rfl
    rw [hnone]
    have hmoves := (s.nodes n).engineMoves φ action
    generalize ((s.nodes n).step φ action).1.engine = e at hmoves
    cases hmoves with
    | chooses choice =>
      rw [GossipEngine.selectPeer_fst]
      exact ⟨rfl, p, hp, rfl⟩
    | touches r => exact absurd rfl (hreceive r)
    | checks now => exact absurd ⟨now, rfl⟩ hcheck
    | keeps => exact ⟨rfl, p, hp, rfl⟩

/-- What a message makes of an entry. -/
theorem Holds.receive {timeout : ℤ} {w : Watch} (h : s.Holds n i timeout w)
    (hs : s.Recognises id a ks) (hks : (ks n).Nodup) (hk : (ks n)[i]? = some k) {m now : ℕ}
    {p : Packet N} (hp : s.sent[m]? = some p) (hdst : p.dst = n) :
    (s.afterStep a n ((s.nodes n).step φ (.receive (receipt p now)))).Holds n i timeout
      ((sights n k s (.deliver m now)).foldl (Watch.see timeout) w) := by
  obtain ⟨rfl, q, hq, rfl⟩ := h
  obtain ⟨j, hsrc, hj, hhost⟩ := hs.packets p (List.mem_of_getElem? hp)
  obtain ⟨htouched, -⟩ := touchPeers_getElem? (hs.peers n) hks hq hk j now
  have hpeers : ((s.nodes n).step φ (.receive (receipt p now))).1.engine.peers[i]? =
      some (if k = j then q.touched (id j) now else q) := by
    rw [EngineThreads.step, receipt, hj, hhost]
    exact htouched
  rw [Holds, nodes_afterStep_self]
  refine ⟨rfl, _, hpeers, ?_⟩
  simp only [sights, hp, hdst, hsrc, true_and, Option.some.injEq]
  by_cases hjk : k = j
  · rw [if_pos hjk, if_pos hjk.symm]
    rfl
  · rw [if_neg hjk, if_neg (Ne.symm hjk)]
    rfl

omit [DecidableEq N] in
theorem Holds.of_nodes_eq {t : ThreadedNetwork N} {timeout : ℤ} {w : Watch}
    (h : s.Holds n i timeout w) (heq : t.nodes n = s.nodes n) : t.Holds n i timeout w := by
  rw [Holds, heq]
  exact h

/-- Every entry is a detector for the node that it is about. -/
theorem refines_watch (φ : GoldenRatio) (hid : Function.Injective id) (s₀ : ThreadedNetwork N)
    (hks : (ks n).Nodup) (hk : (ks n)[i]? = some k) (timeout : ℤ) (w₀ : Watch) :
    (threadSystem φ a s₀).Refines (watchSystem timeout w₀) (sights n k)
      fun s w => s.Recognises id a ks ∧ s.Holds n i timeout w where
  enables s w l _ _ := enables_watchSystem timeout w₀ w (sights n k s l)
  related := by
    rintro s w l ⟨hs, hholds⟩ hl
    refine ⟨hs.step hid hl, ?_⟩
    cases l with
    | act m action =>
      by_cases hm : n = m
      · subst hm
        refine hholds.act fun r hr => ?_
        subst hr
        exact hl.elim
      · have hnone : sights n k s (.act m action) = [] := by
          cases action with
          | checkLiveness now => exact if_neg (Ne.symm hm)
          | _ => rfl
        rw [hnone]
        exact hholds.of_nodes_eq (nodes_afterStep_of_ne hm _)
    | deliver m now =>
      obtain ⟨p, hp, -⟩ := hl
      have hstep : s.step φ a (.deliver m now) =
          s.afterStep a p.dst ((s.nodes p.dst).step φ (.receive (receipt p now))) := by
        simp only [step, hp]
      change (s.step φ a (.deliver m now)).Holds n i timeout _
      rw [hstep]
      by_cases hdst : p.dst = n
      · subst hdst
        exact hholds.receive hs hks hk hp rfl
      · have hnone : sights n k s (.deliver m now) = [] := by
          simp only [sights, hp, hdst, false_and, if_false]
        rw [hnone]
        exact hholds.of_nodes_eq (nodes_afterStep_of_ne (Ne.symm hdst) _)

/-- **The peer table is a failure detector.** In every run of the threads in which the entries tell
the nodes apart, an entry that was alive at the start is alive unless a liveness check of the node
came more than the timeout after the last message from the peer before it, and no message from the
peer has come since. The next message from the peer is met with a request for its log exactly if the
entry is not alive. -/
theorem isAlive_iff (φ : GoldenRatio) (hid : Function.Injective id) (h₀ : s₀.Recognises id a ks)
    (hls : (threadSystem φ a s₀).Enables s₀ ls) (hks : (ks n).Nodup) (hk : (ks n)[i]? = some k)
    {p₀ : PeerInfo} (hp₀ : (s₀.nodes n).engine.peers[i]? = some p₀) (halive : p₀.isAlive) :
    let s := (threadSystem φ a s₀).run s₀ ls
    let seen := (threadSystem φ a s₀).emitted (sights n k) s₀ ls
    ∃ p, (s.nodes n).engine.peers[i]? = some p ∧
      (p.isAlive ↔ ¬ GivenUp (s₀.nodes n).engine.peerTimeoutMs p₀.lastHeard seen) ∧
        ∀ q ∈ s.sent, q.src = some k → ∀ now,
          ((s.nodes n).step φ (.receive (receipt q now))).2 =
            if p.isAlive then []
            else [⟨(s.nodes n).engine.message .antiEntropyReq [], p.host, p.port⟩] := by
  intro s seen
  obtain ⟨-, hs, -, p, hp, hwatch⟩ := (refines_watch φ hid s₀ hks hk
    (s₀.nodes n).engine.peerTimeoutMs p₀.watch).run ⟨h₀, rfl, p₀, hp₀, rfl⟩ hls
  refine ⟨p, hp, ?_, fun q hq hsrc now => ?_⟩
  · have hflag := congrArg Watch.alive hwatch
    change p.isAlive = _ at hflag
    rw [hflag]
    exact Watch.alive_foldl_iff (w := p₀.watch) halive
  · obtain ⟨j, hj, hsender, hhost⟩ := hs.packets q hq
    obtain rfl : k = j := Option.some.inj (hsrc.symm.trans hj)
    obtain ⟨-, hrevived⟩ := touchPeers_getElem? (hs.peers n) hks hp hk k now
    have hcame : (touchPeers (id k) (a.host k) now (s.nodes n).engine.peers).2 =
        if p.isAlive then none else some (p.touched (id k) now) := hrevived rfl
    rw [EngineThreads.step, receipt, hsender, hhost]
    simp only [hcame]
    split_ifs <;> rfl

/-- A heartbeat is on its way for longer than the timeout. -/
def beatAndCheck : List (ThreadTurn Bool) :=
  [.act true (.chooseHeartbeat 0), .act true .sendHeartbeat, .act false (.checkLiveness 5000)]

theorem isAlive_iff_beatAndCheck :
    let s := (threadSystem .exact twoAddresses twoNodes).run twoNodes beatAndCheck
    ∃ p, (s.nodes false).engine.peers[0]? = some p ∧ p.isAlive = false ∧
      ∀ q ∈ s.sent, q.src = some true → ∀ now,
        ((s.nodes false).step .exact (.receive (receipt q now))).2 =
          [⟨(s.nodes false).engine.message .antiEntropyReq [], p.host, p.port⟩] := by
  intro s
  have hentries (n : Bool) : List.Forall₂ (twoAddresses.Identifies twoNames)
      (twoNodes.nodes n).engine.peers [!n] :=
    .cons ⟨Or.inl rfl, fun j hj => injective_twoNames (hj.elim Eq.symm Eq.symm)⟩ .nil
  obtain ⟨p, hp, hflag, hrequest⟩ := @isAlive_iff Bool _ twoNames twoAddresses twoNodes
    (fun n => [!n]) true false beatAndCheck 0 .exact injective_twoNames
    ⟨fun _ => rfl, hentries, fun q hq => absurd hq List.not_mem_nil⟩
    ⟨rfl, ⟨_, _, rfl⟩, rfl, trivial⟩ (List.nodup_singleton _) rfl _ rfl rfl
  have hdead : p.isAlive = false := by
    refine Bool.eq_false_iff.mpr fun halive => hflag.mp halive ?_
    exact ⟨[], 5000, [], rfl, by decide, fun _ => List.not_mem_nil⟩
  refine ⟨p, hp, hdead, fun q hq hsrc now => ?_⟩
  rw [hrequest q hq hsrc now, hdead]
  rfl

end ThreadedNetwork

end Convergence
