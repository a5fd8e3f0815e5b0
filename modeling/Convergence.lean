import Convergence.Library.SortedMap
import Convergence.Library.TransitionSystem
import Convergence.Library.Refinement
import Convergence.Library.Progress
import Convergence.Library.TimeoutDetector
import Convergence.Library.GroupedSums
import Convergence.Library.Ranking
import Convergence.Library.VectorTime
import Convergence.Library.CausalList
import Convergence.Library.BigEndian
import Convergence.Library.ByteReader
import Convergence.Library.ByteLayout
import Convergence.Library.Binary64
import Convergence.Library.Greedy
import Convergence.Library.TextStream
import Convergence.Library.DecimalText
import Convergence.Library.GoldenSection
import Convergence.Library.IrrationalRotation
import Convergence.Library.Segments
import Convergence.Library.JsText
import Convergence.Library.JsNumber
import Convergence.Library.CyclicSearch
import Convergence.OrderBook.Order
import Convergence.OrderBook.Book
import Convergence.OrderBook.Matching
import Convergence.OrderBook.Levels
import Convergence.OrderBook.Invariant
import Convergence.OrderBook.Depth
import Convergence.OrderBook.Ledger
import Convergence.OrderBook.LifeCycle
import Convergence.OrderBook.Removal
import Convergence.OrderBook.Quotes
import Convergence.OrderBook.GreedyMatching
import Convergence.OrderBook.PriceTime
import Convergence.OrderBook.Arithmetic
import Convergence.OrderBook.ShownLevels
import Convergence.OrderBook.NoTrace
import Convergence.Crdt.VectorClock
import Convergence.Crdt.CrdtOrderBook
import Convergence.Crdt.Calls
import Convergence.Crdt.Replay
import Convergence.Crdt.Cluster
import Convergence.Crdt.ClientRuns
import Convergence.Crdt.Lamport
import Convergence.Crdt.Causality
import Convergence.Crdt.AntiEntropy
import Convergence.Crdt.Delivery
import Convergence.Crdt.TimePriority
import Convergence.Crdt.MarketLog
import Convergence.Crdt.LogClock
import Convergence.Crdt.BookChange
import Convergence.Crdt.DeltaSelection
import Convergence.Crdt.FailedCancel
import Convergence.Crdt.ClockOrder
import Convergence.Crdt.CancelledOrders
import Convergence.Crdt.CausalDelivery
import Convergence.Crdt.TradedBooks
import Convergence.Gossip.Message
import Convergence.Gossip.RoundTrip
import Convergence.Gossip.Bounds
import Convergence.Gossip.PriceCodec
import Convergence.Gossip.RawOperations
import Convergence.Gossip.WythoffScheduler
import Convergence.Gossip.Engine
import Convergence.Gossip.WythoffIndex
import Convergence.Gossip.PeerChoice
import Convergence.Gossip.Node
import Convergence.Gossip.Network
import Convergence.Gossip.Threads
import Convergence.Gossip.ThreadRefinement
import Convergence.Gossip.CausalGossip
import Convergence.Gossip.CatchingUp
import Convergence.Gossip.Turns
import Convergence.Gossip.ParallelRuns
import Convergence.Gossip.ReplyChains
import Convergence.Gossip.Partition
import Convergence.Gossip.DatagramSize
import Convergence.Gossip.PeerIdentity
import Convergence.Gossip.MemoryContents
import Convergence.Gossip.WirePrices
import Convergence.Gossip.PriceLevels
import Convergence.Gossip.Truncation
import Convergence.Gossip.MatchingReplicas
import Convergence.Gossip.WireMessages
import Convergence.Gossip.WireNetwork
import Convergence.Gossip.RoundRobin
import Convergence.Gossip.SyncModes
import Convergence.Gossip.PairCoverage
import Convergence.Gossip.PhaseOffset
import Convergence.Gossip.CoverageMatrix
import Convergence.Gossip.QuietRounds
import Convergence.Gossip.RoundStrategies
import Convergence.Gossip.Liveness
import Convergence.Gossip.Settling
import Convergence.Api.ClientHandler
import Convergence.Api.RequestCheck
import Convergence.Api.LevelTotals
import Convergence.Api.RequestCalls
import Convergence.Api.TcpServer
import Convergence.Api.Bridge
import Convergence.Api.MarketReplay
import Convergence.Api.ReplayedBars
import Convergence.Api.Dashboard
import Convergence.Api.SameAnswers
import Convergence.Api.OrderIds
import Convergence.Util.Config
import Convergence.Gossip.Deployment
