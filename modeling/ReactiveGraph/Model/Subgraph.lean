import ReactiveGraph.Model.Engine

/-!
# Subgraphs and their handles

A `SubgraphBuilder` collects node descriptors outside the engine. It keeps every id it was given,
repetitions included, and one descriptor for each. `merge` registers the descriptors, activates the
sinks, and returns a handle with the ids; dropping the handle puts them on the engine's removal
queue, from which the next public call takes them.

**The two lists are not of the same length** when an id was given twice: the descriptors register it
once, the handle releases it once for each time. What follows from that is not arranged away here.

**Any descriptor is accepted.** The source's builder has methods for sources, computes and sinks and
none for async nodes, so no subgraph of a program holds one; async nodes are registered through
`graph()`. A descriptor here may be of any kind and its implementation any function. The results
over all subgraphs are stronger for it; a run that is to be one of a program takes its async nodes
from `graph()`, and every concrete run in this development does.

A handle is a list of ids. Its link to the engine is the removal queue, which in the source both
hold and which is a field of the engine here, so a handle of one engine cannot be dropped on
another; that it is dropped once at most is up to the run that drops it, where the source leaves it
to the compiler.
-/

namespace ReactiveGraph

variable {V : Type*}

/-- What a node is registered with: the arguments of one `register_node`. -/
structure NodeDescriptor (V : Type*) where
  id : NodeId
  kind : NodeKind
  deps : List NodeId
  nodeImpl : AnyNodeImpl V

/-- A built subgraph ready to be merged into an engine. -/
structure Subgraph (V : Type*) where
  descriptors : List (NodeDescriptor V)
  nodeIds : List NodeId

/-- Accumulates node descriptors outside the engine. `registered` is the set of the ids that have a
descriptor. -/
structure SubgraphBuilder (V : Type*) where
  descriptors : List (NodeDescriptor V)
  nodeIds : List NodeId
  registered : Finset NodeId

namespace SubgraphBuilder

def new : SubgraphBuilder V := ⟨[], [], ∅⟩

/-- Register a node descriptor. The flag says whether it was newly added. A second descriptor for an
id is dropped, but the id is listed again. -/
def registerNode (b : SubgraphBuilder V) (desc : NodeDescriptor V) : SubgraphBuilder V × Bool :=
  if desc.id ∈ b.registered then ({ b with nodeIds := b.nodeIds ++ [desc.id] }, false)
  else
    (⟨b.descriptors ++ [desc], b.nodeIds ++ [desc.id], insert desc.id b.registered⟩, true)

def build (b : SubgraphBuilder V) : Subgraph V := ⟨b.descriptors, b.nodeIds⟩

/-- The subgraph built by registering the listed nodes in order. Every subgraph is one of these, so
a result over lists of descriptors is one over all subgraphs. -/
def ofList (descs : List (NodeDescriptor V)) : Subgraph V :=
  (descs.foldl (fun b desc => (b.registerNode desc).1) new).build

end SubgraphBuilder

/-- Handle returned when merging a subgraph. It lists what the subgraph's builder was given, and so
releases a node once for each time it was built. -/
structure SubgraphHandle where
  nodeIds : List NodeId
  deriving DecidableEq

namespace Engine

/-- Register all descriptors into the graph. For a node that is there already this is one more
reference and nothing else. -/
def registerAll (e : Engine V) (descriptors : List (NodeDescriptor V)) : Engine V :=
  { e with
    graph := descriptors.foldl
      (fun graph desc => (graph.registerNode desc.id desc.kind desc.deps desc.nodeImpl).1) e.graph }

/-- One iteration of the loop that activates a subgraph's sinks. Only they are asked for; computes
and sources come along as their dependencies, and those that no sink reads stay inactive. -/
def activateIfSink (e : Engine V) (id : NodeId) : Engine V :=
  match e.graph.entries.get id with
  | some entry => if entry.kind = .sink then e.activateSink id else e
  | none => e

/-- Merge a subgraph into the live engine. Everything is registered before the first sink is
activated, so the order within the subgraph does not matter to what a sink finds. -/
def merge (e : Engine V) (subgraph : Subgraph V) : Engine V × SubgraphHandle :=
  (subgraph.nodeIds.foldl activateIfSink
    (e.drainPendingRemovals.registerAll subgraph.descriptors), ⟨subgraph.nodeIds⟩)

/-- The drop of a handle. Nothing happens to the graph now: the ids wait for the next public call
that drains. -/
def dropHandle (e : Engine V) (handle : SubgraphHandle) : Engine V :=
  if handle.nodeIds = [] then e
  else { e with pendingRemovals := e.pendingRemovals ++ [handle.nodeIds] }

end Engine

end ReactiveGraph
