import Convergence.Gossip.Engine
import Convergence.Crdt.Calls
import Convergence.Library.TransitionSystem

/-!
# Runs of one node

The turns that change a node, in any order and with any input: calls of its clients, gossip rounds,
liveness checks and receipts of messages. A heartbeat changes nothing. The datagrams of a run are
those that `do_gossip_round` and `handle_message` send.

## Main definitions

* `NodeTurn`, `NodeTurn.run`, `nodeSystem`.
-/

namespace Convergence

/-- A turn of a node. -/
inductive NodeTurn
  | client (call : Call ℚ)
  | gossipRound (choice : ℕ)
  | checkLiveness (now : ℕ)
  | receive (r : Receipt)

/-- The engine after a turn, and what it sends. -/
def NodeTurn.run (φ : GoldenRatio) (e : GossipEngine) : NodeTurn → GossipEngine × List Datagram
  | client call => ({ e with crdtBook := call.run e.crdtBook }, [])
  | gossipRound choice => e.doGossipRound φ choice
  | checkLiveness now => (e.checkLiveness now, [])
  | receive r => e.handleMessage r.msg r.senderHost r.senderPort r.now

/-- Clients do not make the calls of the receiving thread. -/
def NodeTurn.IsOwn : NodeTurn → Prop
  | client call => call.IsLocal
  | _ => True

/-- The runs of a node from the engine `e`, with all datagrams sent. -/
def nodeSystem (φ : GoldenRatio) (e : GossipEngine) :
    TransitionSystem (GossipEngine × List Datagram) NodeTurn where
  init := (e, [])
  enabled _ l := l.IsOwn
  step s l := ((l.run φ s.1).1, s.2 ++ (l.run φ s.1).2)

end Convergence
