import ReactiveGraph.Lib.FinMap
import ReactiveGraph.Lib.Kahn
import ReactiveGraph.Lib.Worklist
import ReactiveGraph.Model.NodeRef

/-!
# The topology: edges both ways

`deps` maps a node to what it reads from, `dependents` to what reads from it, both as lists with
repetitions. `addNode` writes an edge in both maps; `removeNode` takes the node out of the lists of
its dependencies and drops its own list of dependents, whoever is still in it.

The two maps need not agree, and the model does not make them: a node that is added again while it
is there writes its edges a second time, and one that is removed leaves its dependents with a
dependency that lists nothing. Under which histories they do agree is an invariant of the engine,
proved where the engine's steps are known.

## The two algorithms

`dirtySet` is a worklist over `dependents` and `topoSort` is Kahn's algorithm; their loops are those
of the two libraries at this graph. Here they carry fuel. `DirtySetReturns` and `TopoSortReturns`
are the same loops without it, as the source has them; that they return, and return what is computed
here, is for `Proof/Topology.lean` to prove. The fuel of the worklist covers the initial queue and
one pass for every node that is listed as a dependent, the fuel of the sort one pass for every dirty
node.

In-degrees are counted with repetition, from `deps`, and lowered once for each occurrence, from
`dependents`: the two agree where the maps do, and the counter saturates where they do not. A node
on a cycle never reaches zero and is left out of the sorted list, without a word.

Sets are `Finset`s. Where a loop of the source walks one, the walk is an argument.
-/

namespace ReactiveGraph

/-- Dependency and dependent maps, with topological sort on dirty subgraphs. -/
structure Topology where
  /-- What a node reads from. -/
  deps : FinMap NodeId (List NodeId)
  /-- What reads from a node. -/
  dependents : FinMap NodeId (List NodeId)

namespace Topology

def new : Topology := ⟨∅, ∅⟩

/-- `deps.get(id)` and `dependents.get(id)`, a missing list read as an empty one. -/
def depsOf (t : Topology) (id : NodeId) : List NodeId := (t.deps.get id).getD []

def dependentsOf (t : Topology) (id : NodeId) : List NodeId := (t.dependents.get id).getD []

/-- `dependents.entry(dep).or_default().push(id)`. -/
def pushDependent (id : NodeId) (m : FinMap NodeId (List NodeId)) (dep : NodeId) :
    FinMap NodeId (List NodeId) := m.insert dep ((m.get dep).getD [] ++ [id])

/-- Register a node and its dependencies. A list of dependents that is there already is kept, so a
node that comes back finds those who still read from it. -/
def addNode (t : Topology) (id : NodeId) (deps : List NodeId) : Topology :=
  let dependents := deps.foldl (pushDependent id) t.dependents
  { deps := t.deps.insert id deps
    dependents := dependents.insert id ((dependents.get id).getD []) }

/-- `if let Some(l) = dependents.get_mut(dep) { l.retain(|d| d != id) }`. -/
def retainOthers (id : NodeId) (m : FinMap NodeId (List NodeId)) (dep : NodeId) :
    FinMap NodeId (List NodeId) :=
  match m.get dep with
  | some dependents => m.insert dep (dependents.filter (· ≠ id))
  | none => m

/-- Remove a node from the topology. Its dependents keep it in their list of dependencies; only they
are no longer reached from it. -/
def removeNode (t : Topology) (id : NodeId) : Topology where
  deps := t.deps.remove id
  dependents := ((t.depsOf id).foldl (retainOthers id) t.dependents).remove id

/-- Every node listed as somebody's dependent. The dirty set is among them, whatever the sources,
and this is what bounds the loop. -/
def listed (t : Topology) : Finset NodeId :=
  t.dependents.keys.biUnion fun u => (t.dependentsOf u).toFinset

/-- All transitive dependents of the given sources, which `order` walks. The fuel covers the
initial queue and every node that can be marked. A source is not dirty itself unless it is reached
from one. -/
def dirtySet (order : IterOrder) (t : Topology) (sources : Finset NodeId) : Finset NodeId :=
  Worklist.loop t.dependentsOf ((order.iter sources).length + t.listed.card)
    (order.iter sources) ∅

/-- `entry(node).or_insert(0)`, then the number of the node's dependencies in `dirty`, counted with
repetition, if it has a list of dependencies. A node without one counts as ready. -/
def countDirty (t : Topology) (dirty : Finset NodeId) (inDegree : FinMap NodeId ℕ)
    (node : NodeId) : FinMap NodeId ℕ :=
  match t.deps.get node with
  | some deps => inDegree.insert node (deps.countP (· ∈ dirty))
  | none => inDegree.insert node ((inDegree.get node).getD 0)

/-- The in-degrees within the dirty subgraph. -/
def inDegrees (t : Topology) (dirty : Finset NodeId) (nodes : List NodeId) : FinMap NodeId ℕ :=
  nodes.foldl (t.countDirty dirty) ∅

/-- Topological sort of the dirty set using Kahn's algorithm; `order` walks the dirty set and then
the in-degree map. One order serves for both, since the in-degrees do not depend on the first walk;
`TopoSortReturns` keeps them apart. -/
def topoSort (order : IterOrder) (t : Topology) (dirty : Finset NodeId) : List NodeId :=
  if dirty = ∅ then [] else
    let inDegree := t.inDegrees dirty (order.iter dirty)
    -- the initial queue: the dirty nodes that wait for no other dirty node
    Kahn.loop t.dependentsOf dirty.card
      ((order.iter inDegree.keys).filter fun id => inDegree.get id = some 0) inDegree []

/-! ## The loops without fuel -/

/-- `dirty_set` returns `seen`: its loop, run for as long as the queue is not empty, ends there. -/
def DirtySetReturns (order : IterOrder) (t : Topology) (sources seen : Finset NodeId) : Prop :=
  ([], seen) ∈ StateTransition.eval (Worklist.step t.dependentsOf) (order.iter sources, ∅)

/-- `topo_sort` returns `sorted`; `walk` walks the dirty set and `order` the in-degree map. The
in-degrees that the loop ends with are dropped, as in the source. -/
def TopoSortReturns (walk order : IterOrder) (t : Topology) (dirty : Finset NodeId)
    (sorted : List NodeId) : Prop :=
  if dirty = ∅ then sorted = [] else
    let inDegree := t.inDegrees dirty (walk.iter dirty)
    ∃ inDegree', ([], inDegree', sorted) ∈ StateTransition.eval (Kahn.step t.dependentsOf)
      ((order.iter inDegree.keys).filter fun id => inDegree.get id = some 0, inDegree, [])

end Topology

end ReactiveGraph
