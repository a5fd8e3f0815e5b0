import Convergence.Gossip.Engine
import Convergence.Library.TransitionSystem
import Mathlib.Data.Fintype.Card
import Mathlib.Data.Fintype.EquivFin

/-!
# Agreement on the schedule

Nodes of the Wythoff strategy never tell each other who sends. Each one sorts the ids it knows,
finds its own index among them, and acts in the rounds whose sender has this index. The index is
computed once, from the seeds; the list that a receiver is looked up in is sorted anew every round,
from a table whose ids are learned. The parts fit together as long as the index is the position of
the node in the list of the true ids.

## Main definitions

* `position`: the rank of a node's id.
* `NamesOthers`: a list of ids that has every other node once.
* `GossipEngine.PlaysPart`: the node acts in the rounds of its position.
* `learnSystem`: a node that `main` has set up, hearing from the others.

## Main results

* `exists_unique_position`: positions are the indices, one each.
* `GossipEngine.playsPart`.
* `GossipEngine.wythoff_agreement`, `GossipEngine.index_right_iff`.
-/

namespace Convergence

open TransitionSystem Ranking

variable {N : Type*} [Fintype N] {id host : N → Str}

/-! ### Positions -/

/-- The number of nodes with smaller ids. -/
def position (id : N → Str) (i : N) : ℕ := (Finset.univ.filter fun j => id j < id i).card

theorem position_lt_position {i j : N} (h : id i < id j) : position id i < position id j := by
  refine Finset.card_lt_card ?_
  rw [Finset.ssubset_iff_of_subset fun k hk => ?_]
  · exact ⟨i, by simpa using h, by simp⟩
  · rw [Finset.mem_filter] at hk ⊢
    exact ⟨hk.1, hk.2.trans h⟩

theorem position_inj (hinj : Function.Injective id) {i j : N}
    (h : position id i = position id j) : i = j := by
  rcases lt_trichotomy (id i) (id j) with hlt | heq | hgt
  · exact absurd h (position_lt_position hlt).ne
  · exact hinj heq
  · exact absurd h (position_lt_position hgt).ne'

theorem position_lt (id : N → Str) (i : N) : position id i < Fintype.card N := by
  refine Finset.card_lt_univ_of_notMem (x := i) ?_
  simp

/-- The positions are the numbers below the number of nodes, one each. -/
theorem exists_unique_position (hinj : Function.Injective id) {k : ℕ} (hk : k < Fintype.card N) :
    ∃! i, position id i = k := by
  have hbij : Function.Bijective
      fun i => (⟨position id i, position_lt id i⟩ : Fin (Fintype.card N)) :=
    (Fintype.bijective_iff_injective_and_card _).mpr
      ⟨fun i j h => position_inj hinj (Fin.mk.inj h), (Fintype.card_fin _).symm⟩
  obtain ⟨i, hi⟩ := hbij.2 ⟨k, hk⟩
  exact ⟨i, Fin.mk.inj hi, fun j hj => position_inj hinj (hj.trans (Fin.mk.inj hi).symm)⟩

/-! ### The sorted list of all ids -/

/-- The list has the id of every node but `i`, once. -/
structure NamesOthers (id : N → Str) (i : N) (names : List Str) : Prop where
  nodup : names.Nodup
  mem_iff : ∀ x, x ∈ names ↔ ∃ j, j ≠ i ∧ id j = x

namespace NamesOthers

variable {i : N} {names : List Str}

omit [Fintype N] in
theorem mem_cons_iff (h : NamesOthers id i names) (x : Str) :
    x ∈ id i :: names ↔ ∃ j, id j = x := by
  rw [List.mem_cons, h.mem_iff]
  constructor
  · rintro (rfl | ⟨j, -, rfl⟩)
    exacts [⟨i, rfl⟩, ⟨j, rfl⟩]
  · rintro ⟨j, rfl⟩
    by_cases hj : j = i
    · exact Or.inl (hj ▸ rfl)
    · exact Or.inr ⟨j, hj, rfl⟩

theorem length_eq (h : NamesOthers id i names) (hinj : Function.Injective id) :
    names.length + 1 = Fintype.card N := by
  classical
  have hset : names.toFinset = (Finset.univ.erase i).image id := by
    ext x
    simp only [List.mem_toFinset, h.mem_iff, Finset.mem_image, Finset.mem_erase, Finset.mem_univ,
      and_true]
  rw [← List.toFinset_card_of_nodup h.nodup, hset, Finset.card_image_of_injective _ hinj,
    Finset.card_erase_of_mem (Finset.mem_univ i), Finset.card_univ,
    Nat.sub_add_cancel (Fintype.card_pos_iff.mpr ⟨i⟩)]

/-- The index of an id is the position of its node. -/
theorem idxOf_eq (h : NamesOthers id i names) (hinj : Function.Injective id) (j : N) :
    (sortUnique (id i :: names)).idxOf (id j) = position id j := by
  classical
  rw [idxOf_sortUnique ((h.mem_cons_iff _).mpr ⟨j, rfl⟩), position,
    ← Finset.card_image_of_injective _ hinj]
  congr 1
  ext x
  simp only [Finset.mem_filter, List.mem_toFinset, h.mem_cons_iff, Finset.mem_image,
    Finset.mem_univ, true_and]
  constructor
  · rintro ⟨⟨k, rfl⟩, hlt⟩
    exact ⟨k, hlt, rfl⟩
  · rintro ⟨k, hlt, rfl⟩
    exact ⟨⟨k, rfl⟩, hlt⟩

theorem getElem?_eq_some_iff (h : NamesOthers id i names) (hinj : Function.Injective id) (j : N)
    {k : ℕ} : (sortUnique (id i :: names))[k]? = some (id j) ↔ k = position id j := by
  have hmem : id j ∈ sortUnique (id i :: names) :=
    mem_sortUnique.mpr ((h.mem_cons_iff _).mpr ⟨j, rfl⟩)
  rw [← h.idxOf_eq hinj j]
  constructor
  · intro hk
    obtain ⟨hlt, heq⟩ := List.getElem?_eq_some_iff.mp hk
    rw [← heq, (nodup_sortUnique _).idxOf_getElem]
  · rintro rfl
    exact List.getElem?_idxOf hmem

end NamesOthers

/-- With two nodes there is one other. -/
theorem namesOthers_two (id : Bool → Str) (i : Bool) : NamesOthers id i [id !i] := by
  refine ⟨List.nodup_singleton _, fun x => ?_⟩
  rw [List.mem_singleton]
  constructor
  · rintro rfl
    exact ⟨!i, Bool.not_ne_self i, rfl⟩
  · rintro ⟨j, hj, rfl⟩
    rw [Bool.eq_not_of_ne hj]

/-! ### Playing the part of a position -/

namespace GossipEngine

variable {e : GossipEngine} {i : N}

/-- The pair that all nodes decode in the round of the next call. -/
def nextPair (φ : GoldenRatio) (e : GossipEngine) : GossipPair :=
  e.scheduler.getPair φ (e.round + 1)

/-- The peer that the next call of `select_wythoff_peer` returns. -/
def wythoffTarget (φ : GoldenRatio) (e : GossipEngine) : Option PeerInfo :=
  (e.selectWythoffPeer φ).2.1

/-- The node `i` has the node `j` as its target exactly when the schedule pairs their positions, in
this order, and never has another one. -/
structure PlaysPart (φ : GoldenRatio) (id : N → Str) (i : N) (e : GossipEngine) : Prop where
  target_iff : ∀ j, j ≠ i → ((∃ p, e.wythoffTarget φ = some p ∧ p.nodeId = id j) ↔
    (e.nextPair φ).sender = position id i ∧ (e.nextPair φ).receiver = position id j)
  target_other : ∀ p, e.wythoffTarget φ = some p → p ∈ e.peers ∧ ∃ j, j ≠ i ∧ p.nodeId = id j

theorem wythoffTarget_eq_some_iff (φ : GoldenRatio) {p : PeerInfo} (hp : e.peers ≠ []) :
    e.wythoffTarget φ = some p ↔ (e.nextPair φ).sender = e.myNodeIndex ∧
      ∃ x, (allIds e.nodeId e.peers)[(e.nextPair φ).receiver]? = some x ∧
        e.peers.find? (fun peer => peer.nodeId = x) = some p := by
  rw [wythoffTarget, selectWythoffPeer, if_neg hp]
  simp only [nextPair]
  split_ifs with hs
  · rw [Option.bind_eq_some_iff, and_iff_right hs]
  · simp [hs]

/-- A node that knows the ids of all others and whose index is its position. -/
theorem playsPart (φ : GoldenRatio) (hinj : Function.Injective id) (hid : e.nodeId = id i)
    (hnames : NamesOthers id i (e.peers.map PeerInfo.nodeId))
    (hindex : e.myNodeIndex = position id i) : e.PlaysPart φ id i := by
  have hall : allIds e.nodeId e.peers = sortUnique (id i :: e.peers.map PeerInfo.nodeId) :=
    hid ▸ rfl
  have hpeers {j : N} (hj : j ≠ i) : e.peers ≠ [] := by
    rintro hnil
    have hmem := (hnames.mem_iff (id j)).mpr ⟨j, hj, rfl⟩
    rw [hnil] at hmem
    exact List.not_mem_nil hmem
  constructor
  · intro j hj
    have hget {k : ℕ} : (allIds e.nodeId e.peers)[k]? = some (id j) ↔ k = position id j :=
      hall ▸ hnames.getElem?_eq_some_iff hinj j
    constructor
    · rintro ⟨p, hp, hpj⟩
      obtain ⟨hs, x, hx, hfind⟩ := (wythoffTarget_eq_some_iff φ (hpeers hj)).mp hp
      have hpx : p.nodeId = x := by simpa using List.find?_some hfind
      exact ⟨hs.trans hindex, hget.mp (hpj ▸ hpx ▸ hx)⟩
    · rintro ⟨hs, hr⟩
      obtain ⟨q, hq, hqj⟩ := List.mem_map.mp ((hnames.mem_iff (id j)).mpr ⟨j, hj, rfl⟩)
      have hsome : (e.peers.find? fun peer => peer.nodeId = id j).isSome :=
        List.find?_isSome.mpr ⟨q, hq, decide_eq_true hqj⟩
      obtain ⟨p, hp⟩ := Option.isSome_iff_exists.mp hsome
      refine ⟨p, (wythoffTarget_eq_some_iff φ (hpeers hj)).mpr ⟨hs.trans hindex.symm, id j,
        hget.mpr hr, hp⟩, ?_⟩
      simpa using List.find?_some hp
  · intro p hp
    have hne : e.peers ≠ [] := fun hnil => by
      rw [wythoffTarget, selectWythoffPeer, if_pos hnil] at hp
      cases hp
    obtain ⟨-, x, -, hfind⟩ := (wythoffTarget_eq_some_iff φ hne).mp hp
    have hmem := List.mem_of_find?_eq_some hfind
    obtain ⟨j, hj, hpj⟩ := (hnames.mem_iff p.nodeId).mp (List.mem_map_of_mem hmem)
    exact ⟨hmem, j, hj, hpj.symm⟩

end GossipEngine

/-! ### Clusters with known ids -/

namespace GossipEngine

/-- The state before the `r`-th call of `select_wythoff_peer`, counting from zero. -/
def afterRounds (φ : GoldenRatio) (e : GossipEngine) (r : ℕ) : GossipEngine :=
  (fun e => (e.selectWythoffPeer φ).1)^[r] e

theorem selectWythoffPeer_fst (φ : GoldenRatio) {e : GossipEngine} (hp : e.peers ≠ []) :
    (e.selectWythoffPeer φ).1 = { e with round := e.round + 1 } := by
  rw [selectWythoffPeer, if_neg hp]

/-- Only the round advances. -/
theorem afterRounds_eq (φ : GoldenRatio) {e : GossipEngine} (hp : e.peers ≠ []) (r : ℕ) :
    e.afterRounds φ r = { e with round := e.round + r } := by
  induction r with
  | zero => rfl
  | succ r ih =>
    rw [afterRounds, Function.iterate_succ_apply', ← afterRounds, ih,
      selectWythoffPeer_fst φ (e := { e with round := e.round + r }) hp]
    rfl

/-- One node sends in the next round, to another one that all nodes agree on, in the same mode. -/
structure OneSender (φ : GoldenRatio) (engines : N → GossipEngine) : Prop where
  unique : ∃! i, ((engines i).wythoffTarget φ).isSome
  receiver : ∀ i p, (engines i).wythoffTarget φ = some p → p ∈ (engines i).peers ∧
    ∃ j, j ≠ i ∧ p.nodeId = (engines j).nodeId ∧
      (engines j).myNodeIndex = ((engines i).nextPair φ).receiver
  mode : ∀ i j, ((engines i).selectWythoffPeer φ).2.2 = ((engines j).selectWythoffPeer φ).2.2

/-- What an engine knows about its cluster when its index is its position. -/
structure Placed (id : N → Str) (i : N) (e : GossipEngine) : Prop where
  nodeId : e.nodeId = id i
  names : NamesOthers id i (e.peers.map PeerInfo.nodeId)
  index : e.myNodeIndex = position id i
  scheduler : e.scheduler = .new (Fintype.card N)

theorem Placed.peers_ne_nil {i : N} {e : GossipEngine} (h : e.Placed id i)
    (hcard : 2 ≤ Fintype.card N) : e.peers ≠ [] := by
  intro hnil
  obtain ⟨j, hj⟩ := Fintype.exists_ne_of_one_lt_card hcard i
  have hmem := (h.names.mem_iff (id j)).mpr ⟨j, hj, rfl⟩
  rw [hnil] at hmem
  exact List.not_mem_nil hmem

/-- Nodes that are placed, in the same round. -/
theorem oneSender (φ : GoldenRatio) (hinj : Function.Injective id) (hcard : 2 ≤ Fintype.card N)
    (hlt : Fintype.card N * (Fintype.card N - 1) < 2 ^ 32) {engines : N → GossipEngine}
    (h : ∀ i, (engines i).Placed id i) {r : ℕ} (hr : ∀ i, (engines i).round = r) :
    OneSender φ engines := by
  have hnum := WythoffScheduler.numNodes_new hcard hlt
  have hfits := WythoffScheduler.fits_new hcard hlt
  set pair := (WythoffScheduler.new (Fintype.card N)).getPair φ (r + 1) with hpair
  have hnext (i : N) : (engines i).nextPair φ = pair := by
    rw [nextPair, (h i).scheduler, hr, hpair]
  have hplays (i : N) : (engines i).PlaysPart φ id i :=
    playsPart φ hinj (h i).nodeId (h i).names (h i).index
  obtain ⟨s, hs, hsuniq⟩ :=
    exists_unique_position hinj (hnum ▸ WythoffScheduler.sender_lt φ (r + 1) hfits)
  obtain ⟨t, ht, -⟩ :=
    exists_unique_position hinj (hnum ▸ WythoffScheduler.receiver_lt φ (r + 1) hfits)
  have hts : t ≠ s := by
    rintro rfl
    exact WythoffScheduler.receiver_ne_sender φ (r + 1) hfits (ht.symm.trans hs)
  refine ⟨⟨s, ?_, fun i hi => ?_⟩, fun i p hp => ?_, fun i j => ?_⟩
  · obtain ⟨p, hp, -⟩ := ((hplays s).target_iff t hts).mpr
      ⟨(hnext s).symm ▸ hs.symm, (hnext s).symm ▸ ht.symm⟩
    exact Option.isSome_iff_exists.mpr ⟨p, hp⟩
  · obtain ⟨p, hp⟩ := Option.isSome_iff_exists.mp hi
    obtain ⟨-, j, hj, hpj⟩ := (hplays i).target_other p hp
    have hpos := (((hplays i).target_iff j hj).mp ⟨p, hp, hpj⟩).1
    rw [hnext i] at hpos
    exact hsuniq i hpos.symm
  · obtain ⟨hmem, j, hj, hpj⟩ := (hplays i).target_other p hp
    have hpos := (((hplays i).target_iff j hj).mp ⟨p, hp, hpj⟩).2
    exact ⟨hmem, j, hj, hpj.trans (h j).nodeId.symm, (h j).index.trans hpos.symm⟩
  · rw [selectWythoffPeer, selectWythoffPeer, if_neg ((h i).peers_ne_nil hcard),
      if_neg ((h j).peers_ne_nil hcard), (h i).scheduler, (h j).scheduler, hr, hr]

/-- A constructed engine whose seeds carry the true ids is placed. -/
theorem placed_new (hinj : Function.Injective id) {i : N} {seeds : List PeerInfo}
    (hseeds : NamesOthers id i (seeds.map PeerInfo.nodeId)) (book : CRDTOrderBook ℚ) (timeout : ℤ)
    (strategy : GossipStrategy) : (new (id i) book seeds timeout strategy).Placed id i where
  nodeId := rfl
  names := hseeds
  index := hseeds.idxOf_eq hinj i
  scheduler := by
    have hlength := hseeds.length_eq hinj
    rw [List.length_map] at hlength
    exact congrArg WythoffScheduler.new hlength

/-- **Agreement on the Wythoff schedule.** When the seeds of every node name every other node once,
in any order, the indices that the constructors assign are the numbers below the number of nodes,
one each, and in every round one node has a target, which is the node with the receiver's index. -/
theorem wythoff_agreement (φ : GoldenRatio) (hinj : Function.Injective id)
    (hcard : 2 ≤ Fintype.card N) (hlt : Fintype.card N * (Fintype.card N - 1) < 2 ^ 32)
    {seeds : N → List PeerInfo}
    (hseeds : ∀ i, NamesOthers id i ((seeds i).map PeerInfo.nodeId))
    (book : N → CRDTOrderBook ℚ) (timeout : N → ℤ) :
    let engine (i : N) := new (id i) (book i) (seeds i) (timeout i) .wythoff
    (∀ i, (engine i).myNodeIndex < Fintype.card N) ∧
      (∀ k < Fintype.card N, ∃! i, (engine i).myNodeIndex = k) ∧
      ∀ r, OneSender φ fun i => (engine i).afterRounds φ r := by
  intro engine
  have hplaced (i : N) : (engine i).Placed id i :=
    placed_new hinj (hseeds i) (book i) (timeout i) .wythoff
  refine ⟨fun i => (hplaced i).index ▸ position_lt id i, fun k hk => ?_, fun r => ?_⟩
  · simp only [fun i => (hplaced i).index]
    exact exists_unique_position hinj hk
  · have hafter (i : N) : (engine i).afterRounds φ r = { engine i with round := 0 + r } :=
      afterRounds_eq φ ((hplaced i).peers_ne_nil hcard) r
    refine oneSender φ hinj hcard hlt (fun i => ?_) (fun i => by rw [hafter])
    rw [hafter]
    exact ⟨(hplaced i).nodeId, (hplaced i).names, (hplaced i).index, (hplaced i).scheduler⟩

/-- Two nodes, each with the other one as a seed. -/
theorem wythoff_agreement_two :
    let id (i : Bool) : Str := if i then [97] else [98]
    let engine (i : Bool) := new (id i) (.new (id i)) [⟨id !i, [49], 7000, true, 0⟩] 2000 .wythoff
    (∀ i, (engine i).myNodeIndex < Fintype.card Bool) ∧
      (∀ k < Fintype.card Bool, ∃! i, (engine i).myNodeIndex = k) ∧
      ∀ r, OneSender .exact fun i => (engine i).afterRounds .exact r := by
  intro id engine
  have hinj : Function.Injective id := by
    intro i j hij
    cases i <;> cases j <;> first | rfl | cases hij
  have hseeds (i : Bool) : NamesOthers id i
      ([(⟨id !i, [49], 7000, true, 0⟩ : PeerInfo)].map PeerInfo.nodeId) := namesOthers_two id i
  exact wythoff_agreement .exact hinj le_rfl (by rw [Fintype.card_bool]; omega) hseeds
    (fun i => .new (id i)) fun _ => 2000

end GossipEngine

/-! ### Nodes that learn the ids -/

/-- The table that `main` builds: one entry for every other node, under the name of its host. -/
structure MainSeeds (host : N → Str) (i : N) (seeds : List PeerInfo) : Prop where
  hosts : NamesOthers host i (seeds.map PeerInfo.host)
  nodeId : ∀ p ∈ seeds, p.nodeId = p.host

/-- The runs of the node `i`, which hears from the others, under their true ids and from their
hosts. -/
def learnSystem (id host : N → Str) (i : N) (e : GossipEngine) :
    TransitionSystem GossipEngine Receipt where
  init := e
  enabled _ m := ∃ j, j ≠ i ∧ m.msg.senderId = id j ∧ m.senderHost = host j
  step e m := (e.handleMessage m.msg m.senderHost m.senderPort m.now).1

namespace GossipEngine

variable {i : N} {e e₀ : GossipEngine}

omit [Fintype N] in
/-- What receiving leaves alone. -/
theorem frame_of_reachable (h : (learnSystem id host i e₀).Reachable e) :
    e.nodeId = e₀.nodeId ∧ e.myNodeIndex = e₀.myNodeIndex ∧ e.scheduler = e₀.scheduler ∧
      e.peers.length = e₀.peers.length := by
  refine h.invariant (I := fun e => e.nodeId = e₀.nodeId ∧ e.myNodeIndex = e₀.myNodeIndex ∧
    e.scheduler = e₀.scheduler ∧ e.peers.length = e₀.peers.length) ⟨rfl, rfl, rfl, rfl⟩ ?_
  rintro e m - ⟨hid, hindex, hsched, hlength⟩ -
  have hframe : (learnSystem id host i e₀).step e m =
      (e.handleMessage m.msg m.senderHost m.senderPort m.now).1 := rfl
  simp only [hframe, nodeId_handleMessage, myNodeIndex_handleMessage, scheduler_handleMessage,
    peers_handleMessage, length_touchPeers]
  exact ⟨hid, hindex, hsched, hlength⟩

end GossipEngine

/-- As many ids as other nodes, with all of theirs among them. -/
theorem namesOthers_of_length (hinj : Function.Injective id) {i : N} {names : List Str}
    (hlength : names.length + 1 = Fintype.card N) (h : ∀ j, j ≠ i → id j ∈ names) :
    NamesOthers id i names := by
  classical
  have hcard : ((Finset.univ.erase i).image id).card = names.length := by
    rw [Finset.card_image_of_injective _ hinj, Finset.card_erase_of_mem (Finset.mem_univ i),
      Finset.card_univ, ← hlength, Nat.add_sub_cancel]
  have hsub : (Finset.univ.erase i).image id ⊆ names.toFinset := by
    intro x hx
    obtain ⟨j, hj, rfl⟩ := Finset.mem_image.mp hx
    exact List.mem_toFinset.mpr (h j (Finset.ne_of_mem_erase hj))
  have heq : (Finset.univ.erase i).image id = names.toFinset :=
    Finset.eq_of_subset_of_card_le hsub ((List.toFinset_card_le names).trans_eq hcard.symm)
  refine ⟨Multiset.toFinset_card_eq_card_iff_nodup.mp ((congrArg _ heq.symm).trans hcard),
    fun x => ?_⟩
  rw [← List.mem_toFinset, ← heq, Finset.mem_image]
  simp only [Finset.mem_erase, Finset.mem_univ, and_true]

variable [DecidableEq N]

/-- The names of the hosts of the other nodes stand to the id of the node `i` as their ids do: as
many of them are smaller. -/
def HostsRankAlike (id host : N → Str) (i : N) : Prop :=
  (Finset.univ.filter fun j => j ≠ i ∧ host j < id i).card =
    (Finset.univ.filter fun j => j ≠ i ∧ id j < id i).card

theorem position_eq (id : N → Str) (i : N) :
    position id i = (Finset.univ.filter fun j => j ≠ i ∧ id j < id i).card := by
  refine congrArg Finset.card (Finset.filter_congr fun j _ => ?_)
  refine ⟨fun h => ⟨?_, h⟩, And.right⟩
  rintro rfl
  exact h.false

/-- The index that the constructor assigns to a node that `main` sets up. -/
theorem MainSeeds.idxOf_eq {i : N} {seeds : List PeerInfo} (h : MainSeeds host i seeds)
    (hhost : Function.Injective host) (id : N → Str) :
    (allIds (id i) seeds).idxOf (id i) =
      (Finset.univ.filter fun j => j ≠ i ∧ host j < id i).card := by
  have hnames : seeds.map PeerInfo.nodeId = seeds.map PeerInfo.host :=
    List.map_congr_left fun p hp => h.nodeId p hp
  rw [allIds, hnames, idxOf_sortUnique List.mem_cons_self,
    ← Finset.card_image_of_injective _ hhost]
  congr 1
  ext x
  simp only [Finset.mem_filter, List.mem_toFinset, List.mem_cons, h.hosts.mem_iff,
    Finset.mem_image, Finset.mem_univ, true_and]
  constructor
  · rintro ⟨rfl | ⟨j, hj, rfl⟩, hlt⟩
    · exact absurd hlt (lt_irrefl _)
    · exact ⟨j, ⟨hj, hlt⟩, rfl⟩
  · rintro ⟨j, ⟨hj, hlt⟩, rfl⟩
    exact ⟨Or.inr ⟨j, hj, rfl⟩, hlt⟩

namespace GossipEngine

/-- **The Wythoff index after learning.** Let `main` have set up the node `i`, and let it have
learned the ids of all other nodes. Its index is its position among the ids if and only if as many
host names as ids of other nodes are smaller than its id; and then it plays the part of its position
in every round of the schedule that all nodes follow. -/
theorem index_right_iff (hid : Function.Injective id) (hhost : Function.Injective host) {i : N}
    {seeds : List PeerInfo} (hseeds : MainSeeds host i seeds) (book : CRDTOrderBook ℚ)
    (timeout : ℤ) (strategy : GossipStrategy) {e : GossipEngine}
    (h : (learnSystem id host i (new (id i) book seeds timeout strategy)).Reachable e)
    (hlearned : ∀ j, j ≠ i → id j ∈ e.peers.map PeerInfo.nodeId) :
    (e.myNodeIndex = (allIds e.nodeId e.peers).idxOf e.nodeId ↔ HostsRankAlike id host i) ∧
      (HostsRankAlike id host i → ∀ φ r, PlaysPart φ id i { e with round := r } ∧
        nextPair φ { e with round := r } =
          (WythoffScheduler.new (Fintype.card N)).getPair φ (r + 1)) := by
  obtain ⟨hnode, hindex, hsched, hlength⟩ := frame_of_reachable h
  have hcard : seeds.length + 1 = Fintype.card N := by
    rw [← hseeds.hosts.length_eq hhost, List.length_map]
  have hnames : NamesOthers id i (e.peers.map PeerInfo.nodeId) :=
    namesOthers_of_length hid (by rw [List.length_map, hlength]; exact hcard) hlearned
  have hposition : (allIds e.nodeId e.peers).idxOf e.nodeId = position id i := by
    rw [hnode]
    exact hnames.idxOf_eq hid i
  have hstart : e.myNodeIndex = (Finset.univ.filter fun j => j ≠ i ∧ host j < id i).card :=
    hindex.trans (hseeds.idxOf_eq hhost id)
  refine ⟨by rw [hposition, hstart, position_eq, HostsRankAlike], fun halike φ r => ⟨?_, ?_⟩⟩
  · have hright : e.myNodeIndex = position id i := by
      rw [hstart, position_eq]
      exact halike
    exact playsPart φ hid hnode hnames hright
  · rw [nextPair, hsched, ← hcard]
    rfl

/-! ### A cluster of two -/

/-- The ids `m` and `z`. -/
def twoIds (i : Bool) : Str := if i then [109] else [122]

/-- The hosts `b` of the node `m` and `h` of the node `z`. -/
def twoHosts (h : Str) (i : Bool) : Str := if i then [98] else h

/-- The node `m` with a table that names the other node by its host. -/
def mainEngine (h : Str) : GossipEngine :=
  new (twoIds true) (.new (twoIds true)) [⟨h, h, 7000, true, 0⟩] 2000 .wythoff

/-- The node after a heartbeat of the other one. -/
def afterHeartbeat (h : Str) : GossipEngine :=
  ((mainEngine h).handleMessage ⟨.heartbeat, twoIds false, .new (twoIds false), []⟩ h 7000 1).1

theorem injective_twoIds : Function.Injective twoIds := by
  intro i j hij
  cases i <;> cases j <;> first | rfl | cases hij

theorem injective_twoHosts {h : Str} (hne : h ≠ [98]) : Function.Injective (twoHosts h) := by
  intro i j hij
  cases i <;> cases j <;> first | rfl | exact absurd hij hne | exact absurd hij.symm hne

theorem mainSeeds_two (h : Str) : MainSeeds (twoHosts h) true [⟨h, h, 7000, true, 0⟩] where
  hosts := namesOthers_two (twoHosts h) true
  nodeId p hp := by rw [List.mem_singleton.mp hp]

theorem reachable_afterHeartbeat (h : Str) :
    (learnSystem twoIds (twoHosts h) true (mainEngine h)).Reachable (afterHeartbeat h) :=
  .step .init (⟨⟨.heartbeat, twoIds false, .new (twoIds false), []⟩, h, 7000, 1⟩ : Receipt)
    ⟨false, Bool.false_ne_true, rfl, rfl⟩

theorem learned_afterHeartbeat (h : Str) (j : Bool) (hj : j ≠ true) :
    twoIds j ∈ (afterHeartbeat h).peers.map PeerInfo.nodeId := by
  rw [Bool.eq_false_of_not_eq_true hj, afterHeartbeat, peers_handleMessage]
  simp [mainEngine, new, touchPeers]

/-- The other host is called `y`. -/
theorem index_right_iff_two :
    ((afterHeartbeat [121]).myNodeIndex = (allIds (afterHeartbeat [121]).nodeId
        (afterHeartbeat [121]).peers).idxOf (afterHeartbeat [121]).nodeId ↔
      HostsRankAlike twoIds (twoHosts [121]) true) ∧
      (HostsRankAlike twoIds (twoHosts [121]) true → ∀ φ r,
        PlaysPart φ twoIds true { afterHeartbeat [121] with round := r } ∧
          nextPair φ { afterHeartbeat [121] with round := r } =
            (WythoffScheduler.new (Fintype.card Bool)).getPair φ (r + 1)) :=
  index_right_iff injective_twoIds (injective_twoHosts (by simp)) (mainSeeds_two [121]) _ _ _
    (reachable_afterHeartbeat [121]) (learned_afterHeartbeat [121])

/-- The other host is called `a`, which comes before `m`, as its id does not. -/
theorem not_index_right :
    ¬ ∀ (id host : Bool → Str), Function.Injective id → Function.Injective host →
      ∀ (i : Bool) (seeds : List PeerInfo), MainSeeds host i seeds →
      ∀ (book : CRDTOrderBook ℚ) (timeout : ℤ) (e : GossipEngine),
        (learnSystem id host i (new (id i) book seeds timeout .wythoff)).Reachable e →
        (∀ j, j ≠ i → id j ∈ e.peers.map PeerInfo.nodeId) →
          e.myNodeIndex = (allIds e.nodeId e.peers).idxOf e.nodeId := by
  intro hright
  have hindex := hright twoIds (twoHosts [97]) injective_twoIds (injective_twoHosts (by simp)) true
    _ (mainSeeds_two [97]) _ _ _ (reachable_afterHeartbeat [97]) (learned_afterHeartbeat [97])
  have hnames : NamesOthers twoIds true ((afterHeartbeat [97]).peers.map PeerInfo.nodeId) :=
    namesOthers_of_length injective_twoIds rfl (learned_afterHeartbeat [97])
  have hposition : (allIds (afterHeartbeat [97]).nodeId (afterHeartbeat [97]).peers).idxOf
      (afterHeartbeat [97]).nodeId = position twoIds true :=
    hnames.idxOf_eq injective_twoIds true
  have hstart : (afterHeartbeat [97]).myNodeIndex =
      (Finset.univ.filter fun j => j ≠ true ∧ twoHosts [97] j < twoIds true).card :=
    (mainSeeds_two [97]).idxOf_eq (injective_twoHosts (by simp)) twoIds
  rw [hposition, hstart, position_eq] at hindex
  revert hindex
  decide

end GossipEngine

end Convergence
