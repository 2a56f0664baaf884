import ReactiveGraph.Model.Graph
import ReactiveGraph.Model.Topology

/-!
# The wave scheduler

The parallel executor of a cycle. Every node to run has a ready count, the number of its dirty
dependencies; a wave runs all remaining nodes whose count is zero against the store as it stands,
and only then are the results written and the counts of the dependents lowered. The threads of a
wave share nothing but the store, which none of them writes, so a wave is its nodes' results in the
order they are collected.

Which order a wave's nodes come in is the walk of a hash set: `walks` gives one for each wave. The
threads are joined in that order, so it is also the order in which the results are written; in which
order the callbacks of one wave are really called is not said, and the order of the effects within a
wave should not be read as an answer.

**What differs from the sequential executor**, and is kept: the ready counts are over all dirty
nodes, of which only those in `sorted` are run here, so a node can wait for one that is never run;
`compute` is called once, whatever the node's error strategy; and a result that is not there leaves
the store alone. The loop stops when nothing is ready, and what still remains is then not run.

A wave of one node is run without a thread in the source. It makes no difference to the result, and
the model has one case for both. A panic in a node takes the cycle down with it and is outside the
model.
-/

namespace ReactiveGraph

variable {V : Type*}

namespace Scheduler

/-- The ready count of every node to run: its dependencies in `dirty`, with repetition. Of the dirty
nodes, not of those to run: the asynchronous ones count too. -/
def readyCounts (topology : Topology) (sorted : List NodeId) (dirty : Finset NodeId) :
    FinMap NodeId ℕ :=
  sorted.foldl (fun readyCount nodeId =>
    match topology.deps.get nodeId with
    | some deps => readyCount.insert nodeId (deps.countP (· ∈ dirty))
    | none => readyCount.insert nodeId 0) ∅

/-- Run one node: a `compute` gives its result, a sink emits and gives none. A source is passed
over, and so is a node that is not registered. -/
def executeSingle (entries : FinMap NodeId (NodeEntry V)) (store : ValueStore V)
    (nodeId : NodeId) : Option V × List (Effect V) :=
  match entries.get nodeId with
  | none => (none, [])
  | some entry =>
    match entry.kind with
    | .compute =>
      (entry.nodeImpl.compute entry.deps store, [.computed nodeId (store.reads entry.deps) 1])
    | .sink => (none, [.emitted nodeId (store.reads entry.deps)])
    | _ => (none, [])

/-- What the wave loop carries. -/
structure WaveState (V : Type*) where
  store : ValueStore V
  readyCount : FinMap NodeId ℕ
  remaining : Finset NodeId
  effects : List (Effect V)

/-- `if let Some(count) = ready_count.get_mut(dep) { *count = count.saturating_sub(1) }`. -/
def lower (readyCount : FinMap NodeId ℕ) (dep : NodeId) : FinMap NodeId ℕ :=
  match readyCount.get dep with
  | some count => readyCount.insert dep (count - 1)
  | none => readyCount

/-- Write one result of a wave and lower the counts of the node's dependents. A node without a
result lowers them too, so failure does not hold up what depends on it. -/
def writeResult (topology : Topology) (st : WaveState V) (result : NodeId × Option V) :
    WaveState V :=
  { st with
    store := match result.2 with
      | some value => st.store.setById result.1 value
      | none => st.store
    readyCount := (topology.dependentsOf result.1).foldl lower st.readyCount
    remaining := st.remaining.erase result.1 }

/-- The remaining nodes whose ready count is zero. -/
def ready (walk : IterOrder) (st : WaveState V) : List NodeId :=
  (walk.iter st.remaining).filter fun id => (st.readyCount.get id).getD 0 = 0

/-- Run every ready node against the store as it stands, then write the results. No node of a wave
sees what another one of it computed. -/
def wave (entries : FinMap NodeId (NodeEntry V)) (topology : Topology) (nodes : List NodeId)
    (st : WaveState V) : WaveState V :=
  let results := nodes.map fun id => (id, executeSingle entries st.store id)
  (results.map fun r => (r.1, r.2.1)).foldl (writeResult topology)
    { st with effects := st.effects ++ results.flatMap fun r => r.2.2 }

/-- The wave loop, which stops when nothing remains or nothing is ready. Each wave but the last
removes a node, so the fuel, the number of nodes to run, does not run out before one of the two. -/
def loop (walks : ℕ → IterOrder) (entries : FinMap NodeId (NodeEntry V)) (topology : Topology) :
    ℕ → WaveState V → WaveState V
  | 0, st => st
  | n + 1, st =>
    if st.remaining = ∅ then st
    -- what remains waits for nodes that are not run here, and is left
    else if ready (walks n) st = [] then st
    else loop walks entries topology n (wave entries topology (ready (walks n) st) st)

/-- Execute a propagation cycle using wave-based parallel dispatch: the store afterwards, and the
calls made on the way. -/
def executeParallel (walks : ℕ → IterOrder) (entries : FinMap NodeId (NodeEntry V))
    (store : ValueStore V) (topology : Topology) (sorted : List NodeId) (dirty : Finset NodeId) :
    ValueStore V × List (Effect V) :=
  let st := loop walks entries topology sorted.length
    ⟨store, readyCounts topology sorted dirty, sorted.toFinset, []⟩
  (st.store, st.effects)

end Scheduler

end ReactiveGraph
