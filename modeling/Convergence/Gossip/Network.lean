import Convergence.Gossip.Engine
import Convergence.Crdt.Calls
import Convergence.Library.TransitionSystem
import Mathlib.Logic.Function.Basic

/-!
# Engines on a network

Gossip engines that send each other datagrams. A datagram goes where its host and port lead, or
nowhere; on the way it can be delayed, overtaken or lost. It arrives with the host and the port of
its sender. In one step of a run a thread of one engine takes a turn, a client calls one of the
replicas, or a packet is lost.

## Main definitions

* `Packet`, `Addressing`, `Network`.
* `Turn`, `Network.step`, `networkSystem`.

## Main results

* `Network.forall_engines_afterTurn`.
-/

namespace Convergence

variable {N : Type*}

/-- A datagram in flight, with what its receiver learns about the sender's socket. -/
structure Packet (N : Type*) where
  /-- The sender, unless the datagram came from elsewhere. -/
  src : Option N
  dst : N
  msg : Message
  senderHost : Str
  senderPort : ℕ

/-- The addresses of the nodes. -/
structure Addressing (N : Type*) where
  /-- The node that a datagram for a host and a port reaches. -/
  route : Str → ℕ → Option N
  /-- The host that `recv_from` reports for a node. -/
  host : N → Str
  /-- The port that `recv_from` reports for a node. -/
  port : N → ℕ

/-- `UDPTransport::send_to`, for the datagrams of one turn of the node `n`. -/
def Addressing.packets (a : Addressing N) (n : N) (datagrams : List Datagram) : List (Packet N) :=
  datagrams.filterMap fun d =>
    (a.route d.host d.port).map fun dst => ⟨some n, dst, d.msg, a.host n, a.port n⟩

/-- The engines and the datagrams in flight. -/
structure Network (N : Type*) where
  engines : N → GossipEngine
  inFlight : List (Packet N)

/-- The steps of a network. Packets are named by their places in flight. -/
inductive Turn (N : Type*)
  | gossipRound (n : N) (choice : ℕ)
  | heartbeat (n : N) (choice : ℕ)
  | checkLiveness (n : N) (now : ℕ)
  | deliver (k now : ℕ)
  | lose (k : ℕ)
  | client (n : N) (call : Call ℚ)

namespace Network

variable [DecidableEq N] {c : Network N} {a : Addressing N} {φ : GoldenRatio}

/-- The node `n` has taken a turn, in which it sent datagrams. -/
def afterTurn (a : Addressing N) (c : Network N) (n : N) (r : GossipEngine × List Datagram) :
    Network N where
  engines := Function.update c.engines n r.1
  inFlight := c.inFlight ++ a.packets n r.2

@[simp] theorem engines_afterTurn_self (n : N) (r : GossipEngine × List Datagram) :
    (c.afterTurn a n r).engines n = r.1 :=
  Function.update_self ..

theorem engines_afterTurn_of_ne {i n : N} (h : i ≠ n) (r : GossipEngine × List Datagram) :
    (c.afterTurn a n r).engines i = c.engines i :=
  Function.update_of_ne h ..

/-- What holds of all engines after a turn of the node `n`. -/
theorem forall_engines_afterTurn {I : N → GossipEngine → Prop} {n : N}
    {r : GossipEngine × List Datagram} (h : ∀ i, I i (c.engines i)) (hn : I n r.1) (i : N) :
    I i ((c.afterTurn a n r).engines i) := by
  by_cases hi : i = n
  · subst hi
    rwa [engines_afterTurn_self]
  · rw [engines_afterTurn_of_ne hi]
    exact h i

/-- The packet at the place `k` is in flight no more. -/
def drop (c : Network N) (k : ℕ) : Network N := { c with inFlight := c.inFlight.eraseIdx k }

/-- A network after a step. -/
def step (φ : GoldenRatio) (a : Addressing N) (c : Network N) : Turn N → Network N
  | .gossipRound n choice => c.afterTurn a n ((c.engines n).doGossipRound φ choice)
  | .heartbeat n choice => c.afterTurn a n (c.engines n, (c.engines n).heartbeat choice)
  | .checkLiveness n now => c.afterTurn a n ((c.engines n).checkLiveness now, [])
  | .deliver k now =>
    match c.inFlight[k]? with
    | none => c
    | some p => (c.drop k).afterTurn a p.dst
        ((c.engines p.dst).handleMessage p.msg p.senderHost p.senderPort now)
  | .lose k => c.drop k
  | .client n call => c.afterTurn a n
      ({ c.engines n with crdtBook := call.run (c.engines n).crdtBook }, [])

/-- The step can be taken. -/
def CanTake (c : Network N) : Turn N → Prop
  | .deliver k _ => k < c.inFlight.length
  | .lose k => k < c.inFlight.length
  | .client _ call => call.IsLocal
  | _ => True

end Network

/-- The runs of a network from the state `c`. -/
def networkSystem [DecidableEq N] (φ : GoldenRatio) (a : Addressing N) (c : Network N) :
    TransitionSystem (Network N) (Turn N) where
  init := c
  enabled := Network.CanTake
  step := Network.step φ a

end Convergence
