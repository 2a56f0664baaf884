import ReactiveGraph.Model.Engine

/-!
# Looking at an engine

`snapshot` lists the active nodes and the edges between them, `metrics` counts them by kind; both
walk the set of active nodes, in whatever order, and change nothing. A node that is active and not
registered would be passed over.

Neither drains the removal queue, since both borrow the engine immutably: what they show is the
state that the last mutable call left, in which a node of a dropped handle is still there.

Kinds, dependencies and counts are read off the registry and not off the topology. That the two say
the same of an active node is an invariant of the engine (`Proof/Introspection.lean`), and so is
that no active node is passed over; neither is built into the definitions here.

`pending_async` is a constant in the source, marked there as something still to be tracked, and a
constant here. The durations of the last cycle are left out, as in `Engine.lean`; of the debug text
of an id, which the source's own records carry along, nothing is kept either.
-/

namespace ReactiveGraph

variable {V : Type*}

/-- Information about a single node in the graph: its registry entry without the implementation. -/
structure NodeInfo where
  id : NodeId
  kind : NodeKind
  deps : List NodeId
  refCount : ℕ
  deriving DecidableEq

/-- A snapshot of the graph at a point in time. An edge runs from a dependency to the node that has
it, once for each time it is listed. -/
structure GraphSnapshot where
  nodes : List NodeInfo
  edges : List (NodeId × NodeId)
  deriving DecidableEq

/-- Aggregate engine metrics. The four counts are of active nodes; what is registered and was never
activated is in none of them. -/
structure EngineMetrics where
  totalCycles : ℕ
  activeSources : ℕ
  activeComputes : ℕ
  activeSinks : ℕ
  activeAsyncComputes : ℕ
  pendingAsync : ℕ
  lastCycle : Option CycleMetrics

/-- The counters of one walk over the active nodes, local variables in the source. -/
structure ActiveCounts where
  sources : ℕ
  computes : ℕ
  sinks : ℕ
  asyncComputes : ℕ

def ActiveCounts.add (c : ActiveCounts) : NodeKind → ActiveCounts
  | .source => { c with sources := c.sources + 1 }
  | .compute => { c with computes := c.computes + 1 }
  | .sink => { c with sinks := c.sinks + 1 }
  | .asyncCompute => { c with asyncComputes := c.asyncComputes + 1 }

/-- The counter of a kind, so that one statement can be made of all four. -/
def ActiveCounts.of (c : ActiveCounts) : NodeKind → ℕ
  | .source => c.sources
  | .compute => c.computes
  | .sink => c.sinks
  | .asyncCompute => c.asyncComputes

namespace Engine

def countActive (e : Engine V) (c : ActiveCounts) (id : NodeId) : ActiveCounts :=
  match e.graph.entries.get id with
  | some entry => c.add entry.kind
  | none => c

/-- `metrics()`: the current engine metrics. -/
def engineMetrics (order : IterOrder) (e : Engine V) : EngineMetrics :=
  let c := (order.iter e.active).foldl e.countActive ⟨0, 0, 0, 0⟩
  { totalCycles := e.metrics.totalCycles
    activeSources := c.sources
    activeComputes := c.computes
    activeSinks := c.sinks
    activeAsyncComputes := c.asyncComputes
    pendingAsync := 0
    lastCycle := e.metrics.lastCycle }

/-- One node of the walk: its entry and its incoming edges, at the end of what was listed before. -/
def snapshotNode (e : Engine V) (s : GraphSnapshot) (id : NodeId) : GraphSnapshot :=
  match e.graph.entries.get id with
  | some entry =>
    { nodes := s.nodes ++ [⟨id, entry.kind, entry.deps, entry.refCount⟩]
      edges := s.edges ++ entry.deps.map fun dep => (dep, id) }
  | none => s

/-- Take a snapshot of the current graph for introspection. -/
def snapshot (order : IterOrder) (e : Engine V) : GraphSnapshot :=
  (order.iter e.active).foldl e.snapshotNode ⟨[], []⟩

end Engine

end ReactiveGraph
