import ReactiveGraph.Lib.RefCount
import ReactiveGraph.Model.ValueStore

/-!
# The node registry

`Graph` owns the entries, the value store and the receiving end of the source channel. An entry
carries the node's type-erased implementation, `AnyNodeImpl`: what the engine can ask of a node
without knowing its concrete type.

**A node implementation is a function of what it is passed.** `compute` and `computeAsync` get the
dependency list and the whole value store, as in the source; that they look at nothing but the
dependencies' values is a property some theorems assume (`AnyNodeImpl.Pure`), not a restriction of
the model. What it does restrict is state of their own: a closure with a counter in it, or one that
reads the clock, has no counterpart here. A future is represented by the value it will have when it
completes. `emit` has no field: it hands the dependencies' values to a callback outside the engine,
and the engine records them when it calls it.

**Effects.** Each call of a callback is an `Effect`, with what the node found at its dependencies,
and the engine keeps them in order. They are the model's trace: nothing in the source stores them,
and nothing in the model reads them back, so they can say what was called without changing what is
done.

**The source channel** is a list, the oldest value first. A channel of the source is unbounded and a
send on it fails only when the receiver is gone; the receiver belongs to the graph, so as long as
there is a graph every send succeeds. `bridge` is the second channel that the event loop puts in
front when the engine is started; a value sent then waits in two places one after the other.

`ref_count` is a natural number, in the source a `usize`: the two agree as long as no node is
registered more often than a `usize` can count.
-/

namespace ReactiveGraph

/-- The kind of a node in the graph. Every branch of the engine that tells nodes apart does it by
this and not by the implementation. -/
inductive NodeKind where
  | source
  | compute
  | sink
  | asyncCompute
  deriving DecidableEq

/-- Policy for handling concurrent triggers of async compute nodes; the duration of `debounce`
is in milliseconds. -/
inductive AsyncPolicy where
  /-- Cancel the in-flight computation and start a new one. -/
  | latestWins
  /-- Queue pending computations and execute them sequentially. -/
  | queue
  /-- Wait for a quiet period before starting computation. -/
  | debounce (duration : ℕ)
  deriving DecidableEq

instance : Inhabited AsyncPolicy := ⟨.latestWins⟩

variable {V : Type*}

/-- What the engine can ask of a node. `kind()` is left out: the entry has the kind beside it, and
the engine asks the entry. -/
structure AnyNodeImpl (V : Type*) where
  /-- The activation callback of a source: `none` when there is none to run, else it runs, sends
  the listed values under the node's id and returns a guard. -/
  activate : NodeId → Option (List V)
  compute : List NodeId → ValueStore V → Option V
  computeAsync : List NodeId → ValueStore V → Option V
  asyncPolicy : AsyncPolicy
  concurrencyGroupId : Option ℕ

/-- Called for the dependencies `deps`, `compute` looks at nothing but their values. Every node that
the closure builders make does (`Builder.lean`); a hand-written implementation of the trait is
passed the whole store and might not. -/
def AnyNodeImpl.ReadsDeps (impl : AnyNodeImpl V) (deps : List NodeId) : Prop :=
  ∀ store store', (∀ d ∈ deps, store.getById d = store'.getById d) →
    impl.compute deps store = impl.compute deps store'

/-- It gives nothing, besides, when one of them is missing. This is what makes a value that a cycle
leaves a function of the values it left at the dependencies. -/
structure AnyNodeImpl.Pure (impl : AnyNodeImpl V) (deps : List NodeId) : Prop where
  congr : impl.ReadsDeps deps
  missing : ∀ store, (∃ d ∈ deps, store.getById d = none) →
    impl.compute deps store = none

/-- A call the engine makes to a node's callbacks, with what the node found at its dependencies.
`calls` is how often `compute` was called, more than once under a retry strategy; the future of an
async node, likewise, is made once by a `triggered`. -/
inductive Effect (V : Type*) where
  | activated (id : NodeId)
  | computed (id : NodeId) (reads : List (Option V)) (calls : ℕ)
  | emitted (id : NodeId) (reads : List (Option V))
  | triggered (id : NodeId) (reads : List (Option V))
  deriving DecidableEq

/-- The node whose callback was called. Every effect has exactly one. -/
def Effect.nodeId : Effect V → NodeId
  | .activated id | .computed id _ _ | .emitted id _ | .triggered id _ => id

/-- What a sink found at its dependencies when it emitted. -/
def Effect.emission (id : NodeId) : Effect V → Option (List (Option V))
  | .emitted id' reads => if id' = id then some reads else none
  | _ => none

/-- Everything a sink emitted, in order: for each emission the list of values it was called with,
before they are downcast. -/
def emissions (id : NodeId) (effects : List (Effect V)) : List (List (Option V)) :=
  effects.filterMap (Effect.emission id)

/-- The source whose activation callback was called. -/
def Effect.activation : Effect V → Option NodeId
  | .activated id => some id
  | _ => none

/-- The calls of activation callbacks, in order. -/
def activations (effects : List (Effect V)) : List NodeId := effects.filterMap Effect.activation

/-- Registry entry for a node. Its id is the key it is found under. The entry keeps its kind,
dependencies and implementation for as long as it is there; only the count changes. -/
structure NodeEntry (V : Type*) where
  kind : NodeKind
  deps : List NodeId
  refCount : ℕ
  nodeImpl : AnyNodeImpl V

instance : Counted NodeId (NodeEntry V) where
  count := NodeEntry.refCount
  links := NodeEntry.deps
  withCount entry n := { entry with refCount := n }
  count_withCount _ _ := rfl
  links_withCount _ _ := rfl
  withCount_withCount _ _ _ := rfl
  withCount_count _ := rfl

/-- The core graph structure. Owns node registry and value store. The two ends of the source channel
are one list, since the graph keeps its own sender for as long as it lives. -/
structure Graph (V : Type*) where
  entries : FinMap NodeId (NodeEntry V)
  valueStore : ValueStore V
  /-- Sent on the graph's source channel and not received yet. -/
  sourceRx : List (NodeId × V)
  /-- Where `source_tx` leads: `none` straight to `sourceRx`, or to the bridge channel that the
  event loop puts in between, with what is waiting there. -/
  bridge : Option (List (NodeId × V))

namespace Graph

def new : Graph V := ⟨∅, .new, [], none⟩

/-- `source_tx.send((id, value))`. A sender's clone of `source_tx` leads where the graph's own does,
to the bridge once the engine has been started. -/
def sendSource (graph : Graph V) (id : NodeId) (value : V) : Graph V :=
  match graph.bridge with
  | none => { graph with sourceRx := graph.sourceRx ++ [(id, value)] }
  | some waiting => { graph with bridge := some (waiting ++ [(id, value)]) }

/-- Register a node. The flag says whether it was newly inserted; a node that is there already
keeps its kind, dependencies and implementation, and counts one more reference. -/
def registerNode (graph : Graph V) (id : NodeId) (kind : NodeKind) (deps : List NodeId)
    (nodeImpl : AnyNodeImpl V) : Graph V × Bool :=
  match graph.entries.get id with
  -- the first registration wins: what a later one says of the node is dropped
  | some entry =>
    ({ graph with
        entries := graph.entries.insert id { entry with refCount := entry.refCount + 1 } }, false)
  | none =>
    ({ graph with entries := graph.entries.insert id ⟨kind, deps, 1, nodeImpl⟩ }, true)

/-- The dependencies of a registered node, none for an unregistered one. -/
def depsOf (graph : Graph V) (id : NodeId) : List NodeId :=
  ((graph.entries.get id).map NodeEntry.deps).getD []

theorem depsOf_of_get {graph : Graph V} {id : NodeId} {entry : NodeEntry V}
    (h : graph.entries.get id = some entry) : graph.depsOf id = entry.deps := by
  simp [depsOf, h]

end Graph

end ReactiveGraph
