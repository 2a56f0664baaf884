import ReactiveGraph.Lib.FinMap
import ReactiveGraph.Lib.Runs
import ReactiveGraph.Lib.Dag
import ReactiveGraph.Lib.Worklist
import ReactiveGraph.Lib.Kahn
import ReactiveGraph.Lib.RefCount
import ReactiveGraph.Lib.Dataflow
import ReactiveGraph.Lib.Network
import ReactiveGraph.Lib.Levels
import ReactiveGraph.Lib.Rest
import ReactiveGraph.Lib.Interleave
import ReactiveGraph.Model.NodeRef
import ReactiveGraph.Model.ValueStore
import ReactiveGraph.Model.Graph
import ReactiveGraph.Model.Builder
import ReactiveGraph.Model.AsyncCompute
import ReactiveGraph.Model.Topology
import ReactiveGraph.Model.Scheduler
import ReactiveGraph.Model.Engine
import ReactiveGraph.Model.Introspection
import ReactiveGraph.Model.Subgraph
import ReactiveGraph.Model.EventLoop
import ReactiveGraph.Model.World
import ReactiveGraph.Model.Threads
import ReactiveGraph.Model.Session
import ReactiveGraph.Model.Typed
import ReactiveGraph.Model.Senders
import ReactiveGraph.Proof.Topology
import ReactiveGraph.Proof.Activation
import ReactiveGraph.Proof.Deactivation
import ReactiveGraph.Proof.Merge
import ReactiveGraph.Proof.Cycle
import ReactiveGraph.Proof.World
import ReactiveGraph.Proof.Lifetime
import ReactiveGraph.Proof.Scheduler
import ReactiveGraph.Proof.Parallel
import ReactiveGraph.Proof.AsyncManager
import ReactiveGraph.Proof.AsyncRuns
import ReactiveGraph.Proof.LatestWins
import ReactiveGraph.Proof.GroupLimit
import ReactiveGraph.Proof.Recompute
import ReactiveGraph.Proof.Wakeup
import ReactiveGraph.Proof.Settled
import ReactiveGraph.Proof.Batching
import ReactiveGraph.Proof.AsyncPolls
import ReactiveGraph.Proof.GroupSlots
import ReactiveGraph.Proof.QueuePolicy
import ReactiveGraph.Proof.Session
import ReactiveGraph.Proof.Representation
import ReactiveGraph.Proof.Leaks
import ReactiveGraph.Proof.Writes
import ReactiveGraph.Proof.Leftovers
import ReactiveGraph.Proof.GlitchFree
import ReactiveGraph.Proof.Values
import ReactiveGraph.Proof.TypedRefs
import ReactiveGraph.Proof.Exit
import ReactiveGraph.Proof.Confluence
import ReactiveGraph.Proof.Balance
import ReactiveGraph.Proof.Deferral
import ReactiveGraph.Proof.ActivateSink
import ReactiveGraph.Proof.Failure
import ReactiveGraph.Proof.ErrorStrategies
import ReactiveGraph.Proof.Erasure
import ReactiveGraph.Proof.Lives
import ReactiveGraph.Proof.Introspection
import ReactiveGraph.Proof.Waves
import ReactiveGraph.Proof.Structure
import ReactiveGraph.Proof.Linearization
import ReactiveGraph.Proof.AsyncWork
import ReactiveGraph.Proof.AsyncRest
import ReactiveGraph.Lib.Cascade
import ReactiveGraph.Proof.Quiescence
import ReactiveGraph.Proof.Arrival
import ReactiveGraph.Proof.Current
import ReactiveGraph.Proof.Coherence
import ReactiveGraph.Proof.AsyncOrder
import ReactiveGraph.Proof.Driver
import ReactiveGraph.Proof.UpToDate
import ReactiveGraph.Proof.Convergence
import ReactiveGraph.Proof.Callbacks
import ReactiveGraph.Proof.Registered
import ReactiveGraph.Proof.Denotation
import ReactiveGraph.Model.FxPricing
import ReactiveGraph.Model.FxService
import ReactiveGraph.Proof.FxDesk
import ReactiveGraph.Proof.FxService
import ReactiveGraph.Proof.FxBooks
import ReactiveGraph.Proof.FxQuotes
