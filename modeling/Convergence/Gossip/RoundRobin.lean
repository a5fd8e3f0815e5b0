import Convergence.Gossip.PeerChoice

/-!
# Round robin

Consecutive calls of `select_round_robin_peer`. The `do`/`while` loop ends within one turn of the
table, at the next live peer if there is one. Live peers are therefore called in turn: as many calls
as there are live peers return each of them once, and a peer that stays alive is returned within one
call for each slot of the table, whatever happens to the flags of the others.

When all peers are dead the loop comes back to where it started, and so does every further call.

## Main definitions

* `roundRobinFueled`: the loop with as many turns as it is given.
* `roundRobinCalls`: what consecutive calls return, the flags changing between them.

## Main results

* `GossipEngine.fair_of_alive`: live peers are called in turn.
* `GossipEngine.probes_all_dead_iff`: which tables of dead peers are probed as a whole.
-/

namespace Convergence

variable {peers : List PeerInfo}

/-- The loop of `select_round_robin_peer` with fuel: `none` when the fuel is used up before the loop
ends. -/
def roundRobinFueled (peers : List PeerInfo) (start : ℕ) : ℕ → ℕ → Option ℕ
  | 0, _ => none
  | fuel + 1, rr =>
    let next := (rr + 1) % peers.length
    if (peers[next]?.map PeerInfo.isAlive).getD false then some next
    else if next = start then some next
    else roundRobinFueled peers start fuel next

/-- The loop ends within one turn of the table. -/
theorem roundRobinFueled_eq {start turns k fuel : ℕ} (hk : k + turns = peers.length)
    (hstart : start < peers.length) (hturns : 0 < turns) (hfuel : turns ≤ fuel) :
    roundRobinFueled peers start fuel ((start + k) % peers.length) =
      some (roundRobinLoop peers start turns ((start + k) % peers.length)) := by
  induction turns generalizing k fuel with
  | zero => omega
  | succ turns ih =>
    obtain ⟨fuel, rfl⟩ : ∃ m, fuel = m + 1 := ⟨fuel - 1, by omega⟩
    rw [roundRobinFueled, roundRobinLoop]
    simp only [mod_add_turns]
    split_ifs with hfound hback
    · rfl
    · rfl
    · refine ih (by omega) ?_ (by omega)
      -- The last turn of the circle is back at the start.
      by_contra hlast
      have hfull : k + 1 = peers.length := by omega
      rw [hfull, Nat.add_mod_right, Nat.mod_eq_of_lt hstart] at hback
      exact hback rfl

/-- With all peers dead, the loop comes back to its start. -/
theorem roundRobinLoop_of_dead {start turns k : ℕ} (hk : k + turns = peers.length)
    (hstart : start < peers.length) (hdead : ∀ j, ¬ AliveAt peers j) :
    roundRobinLoop peers start turns ((start + k) % peers.length) = start := by
  induction turns generalizing k with
  | zero =>
    obtain rfl : k = peers.length := hk
    rw [roundRobinLoop, Nat.add_mod_right, Nat.mod_eq_of_lt hstart]
  | succ turns ih =>
    rw [roundRobinLoop]
    simp only [mod_add_turns]
    split_ifs with hfound hback
    · exact absurd hfound (hdead _)
    · exact hback
    · exact ih (by omega)

/-- What consecutive calls return, as the slot of the table and the peer in it. Before each call the
table is the next one of the list: between calls the flags may change. -/
def roundRobinCalls : GossipEngine → List (List PeerInfo) → List (ℕ × Option PeerInfo)
  | _, [] => []
  | e, peers :: tables =>
    let called := ({ e with peers := peers } : GossipEngine).selectRoundRobinPeer
    (called.1.rrIndex, called.2) :: roundRobinCalls called.1 tables

namespace GossipEngine

variable {e : GossipEngine}

/-- The slots of the live peers. -/
def aliveSlots (peers : List PeerInfo) : List ℕ :=
  (List.range peers.length).filter fun k => AliveAt peers k

/-- What one call does when there is a live peer: the loop ends within `peers.length` turns, at the
next live slot of the circle, and the call returns the peer in it. -/
structure TakesNextAlive (e : GossipEngine) : Prop where
  terminates : ∀ fuel, e.peers.length ≤ fuel →
    roundRobinFueled e.peers e.rrIndex fuel e.rrIndex = some e.selectRoundRobinPeer.1.rrIndex
  in_range : e.selectRoundRobinPeer.1.rrIndex < e.peers.length
  next : ∃ d, NextAhead e.peers.length (AliveAt e.peers) e.rrIndex d ∧
    e.selectRoundRobinPeer.1.rrIndex = (e.rrIndex + d) % e.peers.length
  alive : ∃ p, e.selectRoundRobinPeer.2 = some p ∧ p.isAlive ∧
    e.peers[e.selectRoundRobinPeer.1.rrIndex]? = some p

theorem takesNextAlive {k : ℕ} (h : e.rrIndex < e.peers.length) (hk : k < e.peers.length)
    (halive : AliveAt e.peers k) : e.TakesNextAlive := by
  obtain ⟨d, hnext⟩ := exists_nextAhead hk h halive
  have hslot := rrIndex_of_nextAhead h hnext
  obtain ⟨p, hp, hpa⟩ := aliveAt_iff.mp hnext.marked
  rw [← hslot] at hp
  refine ⟨fun fuel hfuel => ?_, rrIndex_selectRoundRobinPeer h, ⟨d, hnext, hslot⟩,
    p, (selectRoundRobinPeer_snd h).trans hp, hpa, hp⟩
  have hloop := roundRobinFueled_eq (Nat.zero_add _) h (Nat.zero_lt_of_lt h) hfuel
  rw [selectRoundRobinPeer_rrIndex h, ← hloop, mod_no_turn h]

/-- Calls over tables of one size in which a slot is alive throughout are searches for live
slots. -/
theorem searchVisits_roundRobinCalls {n k : ℕ} {tables : List (List PeerInfo)}
    (h : e.rrIndex < n) (hk : k < n) (hsize : ∀ table ∈ tables, table.length = n)
    (halive : ∀ table ∈ tables, AliveAt table k) :
    SearchVisits n (tables.map AliveAt) e.rrIndex ((roundRobinCalls e tables).map Prod.fst) := by
  induction tables generalizing e with
  | nil => exact .nil _
  | cons table tables ih =>
    obtain rfl := hsize table List.mem_cons_self
    set e' : GossipEngine := { e with peers := table } with he'
    have h' : e'.rrIndex < e'.peers.length := h
    obtain ⟨d, hnext⟩ := exists_nextAhead hk h (halive table List.mem_cons_self)
    have hslot : e'.selectRoundRobinPeer.1.rrIndex = (e.rrIndex + d) % table.length :=
      rrIndex_of_nextAhead h' hnext
    have hrest := ih (e := e'.selectRoundRobinPeer.1) (rrIndex_selectRoundRobinPeer h')
      (fun t ht => hsize t (List.mem_cons_of_mem _ ht))
      fun t ht => halive t (List.mem_cons_of_mem _ ht)
    rw [hslot] at hrest
    rw [roundRobinCalls, List.map_cons, List.map_cons, hslot]
    exact .cons hnext hrest

@[simp] theorem length_roundRobinCalls (e : GossipEngine) (tables : List (List PeerInfo)) :
    (roundRobinCalls e tables).length = tables.length := by
  induction tables generalizing e with
  | nil => rfl
  | cons table tables ih => rw [roundRobinCalls, List.length_cons, ih, List.length_cons]

/-- A call returns the peer in its slot. -/
theorem snd_of_mem_zip {n : ℕ} {tables : List (List PeerInfo)} (h : e.rrIndex < n)
    (hsize : ∀ table ∈ tables, table.length = n) :
    ∀ call ∈ (roundRobinCalls e tables).zip tables, call.1.2 = call.2[call.1.1]? := by
  induction tables generalizing e with
  | nil => exact fun call hcall => absurd hcall List.not_mem_nil
  | cons table tables ih =>
    obtain rfl := hsize table List.mem_cons_self
    set e' : GossipEngine := { e with peers := table } with he'
    have h' : e'.rrIndex < e'.peers.length := h
    intro call hcall
    rw [roundRobinCalls, List.zip_cons_cons] at hcall
    rcases List.mem_cons.mp hcall with rfl | hcall
    · exact selectRoundRobinPeer_snd h'
    · exact ih (e := e'.selectRoundRobinPeer.1) (rrIndex_selectRoundRobinPeer h')
        (fun t ht => hsize t (List.mem_cons_of_mem _ ht)) call hcall

/-- Every call is made on some table. -/
theorem exists_mem_zip {tables : List (List PeerInfo)} {called : ℕ × Option PeerInfo}
    (hcalled : called ∈ roundRobinCalls e tables) :
    ∃ table, (called, table) ∈ (roundRobinCalls e tables).zip tables := by
  have hfst : ((roundRobinCalls e tables).zip tables).map Prod.fst = roundRobinCalls e tables :=
    List.map_fst_zip (length_roundRobinCalls e tables).le
  rw [← hfst] at hcalled
  obtain ⟨⟨called, table⟩, hmem, rfl⟩ := List.mem_map.mp hcalled
  exact ⟨table, hmem⟩

/-- Calls on one table. -/
def callsUnchanged (e : GossipEngine) (k : ℕ) : List (ℕ × Option PeerInfo) :=
  roundRobinCalls e (List.replicate k e.peers)

theorem snd_of_mem_callsUnchanged {k : ℕ} (h : e.rrIndex < e.peers.length)
    {called : ℕ × Option PeerInfo} (hcalled : called ∈ e.callsUnchanged k) :
    called.2 = e.peers[called.1]? := by
  obtain ⟨table, hmem⟩ := exists_mem_zip hcalled
  obtain rfl := List.eq_of_mem_replicate (List.of_mem_zip hmem).2
  exact snd_of_mem_zip h (fun t ht => by rw [List.eq_of_mem_replicate ht]) _ hmem

/-! ### Live peers -/

/-- Live peers are called in turn: with unchanged flags, as many calls as there are live peers
return each of them once; with changing flags, a peer that stays alive is returned by one of as
many calls as there are peers. -/
structure CallsInTurn (e : GossipEngine) : Prop where
  each_once : ((e.callsUnchanged (aliveSlots e.peers).length).map Prod.fst).Perm
    (aliveSlots e.peers)
  returns : ∀ called ∈ e.callsUnchanged (aliveSlots e.peers).length,
    called.2 = e.peers[called.1]?
  staying_alive : ∀ tables : List (List PeerInfo), tables.length = e.peers.length →
    (∀ table ∈ tables, table.length = e.peers.length) → ∀ k < e.peers.length,
      (∀ table ∈ tables, AliveAt table k) →
        ∃ call ∈ (roundRobinCalls e tables).zip tables,
          call.1.1 = k ∧ call.1.2 = call.2[k]?

theorem callsInTurn {k : ℕ} (h : e.rrIndex < e.peers.length) (hk : k < e.peers.length)
    (halive : AliveAt e.peers k) : e.CallsInTurn where
  each_once := by
    have hperm := markedAhead_perm (A := AliveAt e.peers) h
    have hlen : (aliveSlots e.peers).length =
        (markedAhead e.peers.length (AliveAt e.peers) e.rrIndex 0).length :=
      hperm.length_eq.symm
    have hvisits : SearchVisits e.peers.length
        ((List.replicate (aliveSlots e.peers).length e.peers).map AliveAt) e.rrIndex
        ((e.callsUnchanged (aliveSlots e.peers).length).map Prod.fst) :=
      searchVisits_roundRobinCalls h hk (fun t ht => by rw [List.eq_of_mem_replicate ht])
        fun t ht => by rwa [List.eq_of_mem_replicate ht]
    rw [List.map_replicate, ← mod_no_turn h] at hvisits
    rw [hvisits.eq_markedAhead hlen]
    exact hperm
  returns _ := snd_of_mem_callsUnchanged h
  staying_alive tables hlen hsize j hj hlive := by
    obtain ⟨d, hpos, hd, rfl⟩ := exists_turns hj h
    have hvisits := searchVisits_roundRobinCalls h hj hsize hlive
    have hmem := hvisits.mem_of_marked hpos (by rwa [List.length_map, hlen]) fun A hA => by
      obtain ⟨table, htable, rfl⟩ := List.mem_map.mp hA
      exact hlive table htable
    obtain ⟨called, hcalled, hslot⟩ := List.mem_map.mp hmem
    obtain ⟨table, hzip⟩ := exists_mem_zip hcalled
    refine ⟨(called, table), hzip, hslot, ?_⟩
    rw [← hslot]
    exact snd_of_mem_zip h hsize _ hzip

/-- **Round robin is fair among live peers.** -/
theorem fair_of_alive (h : e.rrIndex < e.peers.length) (halive : ∃ p ∈ e.peers, p.isAlive) :
    e.TakesNextAlive ∧ e.CallsInTurn := by
  obtain ⟨p, hp, hpa⟩ := halive
  obtain ⟨k, hk, rfl⟩ := List.mem_iff_getElem.mp hp
  have hslot : AliveAt e.peers k := aliveAt_iff.mpr ⟨_, List.getElem?_eq_getElem hk, hpa⟩
  exact ⟨takesNextAlive h hk hslot, callsInTurn h hk hslot⟩

/-- An engine with two peers, the first of them dead. -/
theorem fair_of_alive_two :
    ({ GossipEngine.new [65] (.new [65]) [⟨[66], [49], 7000, false, 0⟩, ⟨[67], [49], 7001, true, 0⟩]
        5000 .roundRobin with rrIndex := 1 } : GossipEngine).TakesNextAlive ∧
    ({ GossipEngine.new [65] (.new [65]) [⟨[66], [49], 7000, false, 0⟩, ⟨[67], [49], 7001, true, 0⟩]
        5000 .roundRobin with rrIndex := 1 } : GossipEngine).CallsInTurn :=
  fair_of_alive Nat.one_lt_two
    ⟨⟨[67], [49], 7001, true, 0⟩, List.mem_cons_of_mem _ List.mem_cons_self, rfl⟩

/-! ### Dead peers -/

/-- With all peers dead a call leaves the index where it is. -/
theorem rrIndex_of_dead (h : e.rrIndex < e.peers.length)
    (hdead : ∀ p ∈ e.peers, p.isAlive = false) :
    e.selectRoundRobinPeer.1.rrIndex = e.rrIndex := by
  rw [selectRoundRobinPeer_rrIndex h]
  refine roundRobinLoop_of_dead (Nat.zero_add _) h fun j hj => ?_
  obtain ⟨p, hp, hpa⟩ := aliveAt_iff.mp hj
  rw [hdead p (List.mem_of_getElem? hp)] at hpa
  cases hpa

/-- Every further call comes to the same slot. -/
theorem map_fst_callsUnchanged {k : ℕ} (h : e.rrIndex < e.peers.length)
    (hdead : ∀ p ∈ e.peers, p.isAlive = false) :
    (e.callsUnchanged k).map Prod.fst = List.replicate k e.rrIndex := by
  induction k generalizing e with
  | zero => rfl
  | succ k ih =>
    have hslot := rrIndex_of_dead h hdead
    have hpeers := peers_selectRoundRobinPeer e
    have hrest := ih (e := e.selectRoundRobinPeer.1) (by rwa [hslot, hpeers])
      (by rwa [hpeers])
    rw [callsUnchanged, hslot, hpeers] at hrest
    change e.selectRoundRobinPeer.1.rrIndex ::
      (roundRobinCalls e.selectRoundRobinPeer.1 (List.replicate k e.peers)).map Prod.fst = _
    rw [hrest, hslot, List.replicate_succ]

/-- As many calls as there are peers come to every slot. -/
def ProbesAll (e : GossipEngine) : Prop :=
  ∀ k < e.peers.length, k ∈ (e.callsUnchanged e.peers.length).map Prod.fst

/-- **Dead peers.** With all peers dead, calls return every peer if and only if there is only
one. -/
theorem probes_all_dead_iff (h : e.rrIndex < e.peers.length)
    (hdead : ∀ p ∈ e.peers, p.isAlive = false) : e.ProbesAll ↔ e.peers.length = 1 := by
  rw [ProbesAll, map_fst_callsUnchanged h hdead]
  constructor
  · intro hall
    -- Slots 0 and 1 would both be the slot at which the calls stay.
    by_contra hne
    have hzero := List.eq_of_mem_replicate (hall 0 (by omega))
    have hone := List.eq_of_mem_replicate (hall 1 (by omega))
    omega
  · intro hone k hk
    exact List.mem_replicate.mpr (by omega)

/-- A table of one dead peer. -/
theorem probes_all_dead_iff_one :
    (GossipEngine.new [65] (.new [65]) [⟨[66], [49], 7000, false, 0⟩] 5000 .roundRobin).ProbesAll ↔
      [(⟨[66], [49], 7000, false, 0⟩ : PeerInfo)].length = 1 :=
  probes_all_dead_iff (e := GossipEngine.new [65] (.new [65]) [⟨[66], [49], 7000, false, 0⟩] 5000
    .roundRobin) Nat.one_pos fun p hp => by rw [List.mem_singleton.mp hp]

/-- Of two dead peers only the one at the index is ever called. -/
theorem not_probesAll_two_dead :
    ¬ (GossipEngine.new [65] (.new [65])
      [⟨[66], [49], 7000, false, 0⟩, ⟨[67], [49], 7001, false, 0⟩] 5000 .roundRobin).ProbesAll := by
  intro hall
  have hone := hall 1 Nat.one_lt_two
  rw [map_fst_callsUnchanged Nat.two_pos (by simp [GossipEngine.new])] at hone
  exact absurd (List.eq_of_mem_replicate hone) Nat.one_ne_zero

end GossipEngine

end Convergence
