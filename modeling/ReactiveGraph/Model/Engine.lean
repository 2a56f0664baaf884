import ReactiveGraph.Model.AsyncCompute
import ReactiveGraph.Model.Scheduler

/-!
# The engine

The engine owns the graph and the topology, activates and deactivates nodes, and runs propagation
cycles. Its two recursions walk dependencies: `activateNode` depth first from a node up, marking it
active before it descends, and `deactivateNode` down the reference counts. Each carries fuel, one
for every registered node, and every call of either starts with enough (`Proof/Activation.lean`,
`Proof/Deactivation.lean` prove that more fuel changes nothing).

`effects` is not in the source. It records, in order, the calls the engine makes to the callbacks of
its nodes: the only thing about a cycle, besides the engine's own state, that anyone outside can
see. Nothing reads it.

**A cycle** is `runCycle` or `runCycleParallel`. Both drain the removals, then the source channel,
then the results of async tasks, and return when nothing came; else they mark what depends on the
updated ids, sort it, and hand it to one of the two executors. The executors are not the same
function run in two ways. The sequential one looks at error strategies and at the times, the
parallel one (`Scheduler.lean`) at neither, and both collect the futures of async nodes and spawn
them after everything else.

**A callback cannot change the engine.** It has no reference to it, so a `compute` is a function of
the store, and whatever a sink does with what it is given happens outside. A source's callback can
send at once, and then does so from inside `activateNode`.

**Left out**: durations, of which only the ids are kept that one was taken for (`timed`); the sleep
between two attempts of a retry; and the thread pool. Counters are natural numbers.
-/

namespace ReactiveGraph

variable {V : Type*}

/-- Error strategies for node computation failures. The comments are the source's; what the
executors make of each is in `executeComputeWithErrorHandling`, and the parallel one asks none of
them. -/
inductive ErrorStrategy where
  /-- Retain the last good value and do not propagate. -/
  | propagateStale
  /-- Forward the error as the node's value. -/
  | propagateError
  /-- Re-invoke with backoff, up to `maxAttempts`. -/
  | retry (maxAttempts backoffMs : ℕ)
  deriving DecidableEq

instance : Inhabited ErrorStrategy := ⟨.propagateStale⟩

/-- Metrics of one propagation cycle. Durations are real time and left out, except for which nodes
one was taken of. -/
structure CycleMetrics where
  cycleId : ℕ
  nodesComputed : ℕ
  timed : Finset NodeId

/-- How many cycles have propagated something, and the metrics of the last one that did. A cycle
that drains nothing is not counted. -/
structure MetricsCollector where
  totalCycles : ℕ
  lastCycle : Option CycleMetrics

def MetricsCollector.recordCycle (c : MetricsCollector) (metrics : CycleMetrics) :
    MetricsCollector := ⟨c.totalCycles + 1, some metrics⟩

/-- The walks of hash sets in one cycle: of the updated ids, of the dirty set and the in-degree
map, and of the remaining nodes in each wave. -/
structure CycleOrder where
  sources : IterOrder
  dirty : IterOrder
  waves : ℕ → IterOrder

instance : Inhabited CycleOrder := ⟨⟨default, default, fun _ => default⟩⟩

/-- The result of `computeAsync` for one node, kept until the executor is through: a future is made
of what the cycle had at that moment and started when the cycle is done. -/
structure AsyncSpawn (V : Type*) where
  nodeId : NodeId
  future : V
  policy : AsyncPolicy
  groupId : Option ℕ

/-- The engine owns the graph and topology, and runs propagation cycles. A guard is known by its
node alone, since all that is ever done with one is to drop it; the removal queue, which a handle
shares with the engine, is a part of the engine here. -/
structure Engine (V : Type*) where
  graph : Graph V
  topology : Topology
  /-- The nodes that hold a guard. -/
  guards : Finset NodeId
  active : Finset NodeId
  asyncManager : AsyncManager V
  errorStrategies : FinMap NodeId ErrorStrategy
  metrics : MetricsCollector
  pendingRemovals : List (List NodeId)
  effects : List (Effect V)

namespace Engine

def new : Engine V := ⟨.new, .new, ∅, ∅, .new, ∅, ⟨0, none⟩, [], []⟩

/-! ## Writing one part of the engine -/

def setStore (e : Engine V) (store : ValueStore V) : Engine V :=
  { e with graph := { e.graph with valueStore := store } }

def setEntries (e : Engine V) (entries : FinMap NodeId (NodeEntry V)) : Engine V :=
  { e with graph := { e.graph with entries := entries } }

/-- Write down calls of callbacks. -/
def record (e : Engine V) (effects : List (Effect V)) : Engine V :=
  { e with effects := e.effects ++ effects }

/-! ## Deactivation -/

/-- What is done for a node whose last reference is gone, before the cascade. Waiting values and
running tasks of the node are left where they are; that they come out later, for a node that is gone
or has come back, is the source's behaviour. -/
def removeEntry (e : Engine V) (id : NodeId) (kind : NodeKind) : Engine V :=
  { e with
    guards := if kind = .source then e.guards.erase id else e.guards
    graph :=
      { e.graph with
        valueStore := e.graph.valueStore.remove id
        entries := e.graph.entries.remove id }
    topology := e.topology.removeNode id
    active := e.active.erase id
    errorStrategies := e.errorStrategies.remove id }

/-- Deactivate a node. If its reference count reaches 0, removes it and cascades. An unregistered
node is passed over, so a list may name one node more often than it counts references. -/
def deactivateNode : ℕ → NodeId → Engine V → Engine V
  | 0, _, e => e
  | n + 1, id, e =>
    match e.graph.entries.get id with
    | none => e
    | some entry =>
      -- saturating: a count of zero, which no registration makes, goes the same way as one
      if entry.refCount - 1 > 0 then
        e.setEntries (e.graph.entries.insert id { entry with refCount := entry.refCount - 1 })
      else
        -- the entry is gone before its dependencies are released, so a cycle ends here
        entry.deps.foldl (fun e dep => deactivateNode n dep e) (e.removeEntry id entry.kind)

/-- A call of `deactivate_node`. One level of the recursion removes one entry, so the number of
entries bounds its depth. -/
def deactivate (e : Engine V) (id : NodeId) : Engine V :=
  deactivateNode e.graph.entries.keys.card id e

/-- The loop over one dropped handle's nodes, last first. A subgraph lists a node after those it was
built from, so what depends goes before what it depends on. -/
def release (e : Engine V) (nodeIds : List NodeId) : Engine V :=
  nodeIds.reverse.foldl deactivate e

/-- Drain any deferred removals enqueued by dropped handles, in the order in which they were
dropped. -/
def drainPendingRemovals (e : Engine V) : Engine V :=
  e.pendingRemovals.foldl release { e with pendingRemovals := [] }

/-! ## Activation -/

/-- Invoke a source's activation callback; a guard it returns is kept. What the callback sends
before it returns is sent here. -/
def invokeActivate (e : Engine V) (id : NodeId) : Engine V :=
  match (e.graph.entries.get id).bind fun entry => entry.nodeImpl.activate id with
  | some values =>
    { e with
      graph := values.foldl (fun graph value => graph.sendSource id value) e.graph
      guards := insert id e.guards
      effects := e.effects ++ [.activated id] }
  | none => e

/-- The initial computation of a node, if all its dependencies have values. A result that is not
there writes nothing, and no error strategy is asked. -/
def initialCompute (e : Engine V) (id : NodeId) : Engine V :=
  match e.graph.entries.get id with
  | some entry =>
    if entry.deps.all e.graph.valueStore.contains then
      let e' := e.record [.computed id (e.graph.valueStore.reads entry.deps) 1]
      match entry.nodeImpl.compute entry.deps e.graph.valueStore with
      | some result => e'.setStore (e.graph.valueStore.setById id result)
      | none => e'
    else e
  | none => e

/-- Put a node into the topology and among the active. This comes before its dependencies are
activated, so a walk that comes back to the node stops there. -/
def markActive (e : Engine V) (id : NodeId) (deps : List NodeId) : Engine V :=
  { e with topology := e.topology.addNode id deps, active := insert id e.active }

/-- What happens to a node once its dependencies have been activated. Sinks and async nodes wait for
a cycle. -/
def finishActivation (e : Engine V) (id : NodeId) : NodeKind → Engine V
  | .source => e.invokeActivate id
  | .compute => e.initialCompute id
  | _ => e

/-- Recursively activate a node and its dependencies. A dependency that is not registered is passed
over, here and for good: registering it later does not activate it. -/
def activateNode : ℕ → NodeId → Engine V → Engine V
  | 0, _, e => e
  | n + 1, id, e =>
    if id ∈ e.active then e
    else
      match e.graph.entries.get id with
      | none => e
      | some entry =>
        (entry.deps.foldl (fun e dep => activateNode n dep e)
          (e.markActive id entry.deps)).finishActivation id entry.kind

/-- A call of `activate_node`. -/
def activate (e : Engine V) (id : NodeId) : Engine V :=
  activateNode e.graph.entries.keys.card id e

/-- The recursion without fuel, as the source has it: `activate_node` called for the listed ids in
turn returns, and leaves the engine as `e'`. A derivation is one run of the recursion, and
`Proof/ActivateSink.lean` shows that there is always one and what it ends in. -/
inductive Activates : List NodeId → Engine V → Engine V → Prop
  | nil {e : Engine V} : Activates [] e e
  | active {e e' : Engine V} {id : NodeId} {ids : List NodeId} (hid : id ∈ e.active)
      (rest : Activates ids e e') : Activates (id :: ids) e e'
  | unregistered {e e' : Engine V} {id : NodeId} {ids : List NodeId} (hid : id ∉ e.active)
      (hnone : e.graph.entries.get id = none) (rest : Activates ids e e') :
      Activates (id :: ids) e e'
  | node {e e₁ e' : Engine V} {id : NodeId} {ids : List NodeId} {entry : NodeEntry V}
      (hid : id ∉ e.active) (hentry : e.graph.entries.get id = some entry)
      (deps : Activates entry.deps (e.markActive id entry.deps) e₁)
      (rest : Activates ids (e₁.finishActivation id entry.kind) e') : Activates (id :: ids) e e'

/-- Activate a sink node, recursively activating its upstream dependencies. -/
def activateSink (e : Engine V) (sinkId : NodeId) : Engine V :=
  e.drainPendingRemovals.activate sinkId

def setErrorStrategy (e : Engine V) (id : NodeId) (strategy : ErrorStrategy) : Engine V :=
  { e with errorStrategies := e.errorStrategies.insert id strategy }

/-- `error_strategies.get(id).cloned().unwrap_or_default()`. -/
def strategyOf (e : Engine V) (id : NodeId) : ErrorStrategy :=
  (e.errorStrategies.get id).getD default

/-- Create a concurrency group with a maximum number of concurrent async tasks. -/
def concurrencyGroup (e : Engine V) (maxConcurrent : ℕ) : Engine V × ℕ :=
  let (asyncManager, gid) := e.asyncManager.createGroup maxConcurrent
  ({ e with asyncManager := asyncManager }, gid)

/-! ## One node of a sequential cycle -/

/-- The loop of the retry strategy: the result and the number of calls. The `fuel` is the number of
attempts there may still be. `compute` is given the same store every time and the model's functions
have no state, so an attempt that fails is followed by others that do; the calls are counted all the
same. -/
def computeRetrying (compute : Option V) (maxAttempts : ℕ) : ℕ → ℕ → Option V × ℕ
  | 0, attempts => (none, attempts)
  | fuel + 1, attempts =>
    match compute with
    | some result => (some result, attempts + 1)
    | none =>
      -- the source compares after it has counted, so no bound is below one attempt
      if attempts + 1 ≥ maxAttempts then (none, attempts + 1)
      else computeRetrying compute maxAttempts fuel (attempts + 1)

/-- One compute node of a sequential cycle, under its strategy. The three differ in what they do
when `compute` gives nothing: keep the value, remove it, or ask again and then keep it. In every
case the nodes after it in the sorted list are run. -/
def executeComputeWithErrorHandling (e : Engine V) (nodeId : NodeId) (depIds : List NodeId)
    (strategy : ErrorStrategy) : Engine V :=
  match e.graph.entries.get nodeId with
  | none => e
  | some entry =>
    let store := e.graph.valueStore
    let reads := store.reads depIds
    match strategy with
    | .propagateStale =>
      let e := e.record [.computed nodeId reads 1]
      match entry.nodeImpl.compute depIds store with
      | some result => e.setStore (store.setById nodeId result)
      | none => e
    | .propagateError =>
      let e := e.record [.computed nodeId reads 1]
      match entry.nodeImpl.compute depIds store with
      | some result => e.setStore (store.setById nodeId result)
      | none => e.setStore (store.remove nodeId)
    | .retry maxAttempts _ =>
      let (result, calls) := computeRetrying (entry.nodeImpl.compute depIds store) maxAttempts
        (maxAttempts + 1) 0
      let e := e.record [.computed nodeId reads calls]
      match result with
      | some result => e.setStore (store.setById nodeId result)
      | none => e

/-- Call `compute_async`; a future it returns is to be spawned. Policy and group are asked of the
node each time, and it is the manager that goes by the first answer. -/
def trigger (e : Engine V) (nodeId : NodeId) (entry : NodeEntry V) :
    Engine V × List (AsyncSpawn V) :=
  let store := e.graph.valueStore
  let e := e.record [.triggered nodeId (store.reads entry.deps)]
  match entry.nodeImpl.computeAsync entry.deps store with
  | some future =>
    (e, [⟨nodeId, future, entry.nodeImpl.asyncPolicy, entry.nodeImpl.concurrencyGroupId⟩])
  | none => (e, [])

/-- What the sequential executor carries. `timed` are the nodes a duration was taken of, all those
it found registered. -/
structure Progress (V : Type*) where
  engine : Engine V
  spawns : List (AsyncSpawn V)
  timed : Finset NodeId

/-- One node of the sorted list, by its kind. A source is among them when it is itself downstream of
something that was updated, which no builder makes, and is then only timed. -/
def executeNode (p : Progress V) (nodeId : NodeId) : Progress V :=
  match p.engine.graph.entries.get nodeId with
  | none => p
  | some entry =>
    match entry.kind with
    | .compute =>
      ⟨p.engine.executeComputeWithErrorHandling nodeId entry.deps (p.engine.strategyOf nodeId),
        p.spawns, insert nodeId p.timed⟩
    | .sink =>
      ⟨p.engine.record [.emitted nodeId (p.engine.graph.valueStore.reads entry.deps)],
        p.spawns, insert nodeId p.timed⟩
    | .asyncCompute =>
      ⟨(p.engine.trigger nodeId entry).1, p.spawns ++ (p.engine.trigger nodeId entry).2,
        insert nodeId p.timed⟩
    | .source => ⟨p.engine, p.spawns, insert nodeId p.timed⟩

/-! ## Cycles -/

def executeSequentialWithAsync (e : Engine V) (sorted : List NodeId) : Progress V :=
  sorted.foldl executeNode ⟨e, [], ∅⟩

/-- Whether the parallel executor leaves a node to the scheduler: everything but async nodes. -/
def isSync (e : Engine V) (id : NodeId) : Bool :=
  match e.graph.entries.get id with
  | some entry => entry.kind ≠ .asyncCompute
  | none => true

/-- The pass of the parallel executor that collects the futures of async nodes. It comes after all
waves, so an async node reads the store that the cycle leaves, wherever it stands in the sorted
list. -/
def collectSpawns (p : Engine V × List (AsyncSpawn V)) (nodeId : NodeId) :
    Engine V × List (AsyncSpawn V) :=
  match p.1.graph.entries.get nodeId with
  | none => p
  | some entry =>
    if entry.kind = .asyncCompute then
      ((p.1.trigger nodeId entry).1, p.2 ++ (p.1.trigger nodeId entry).2)
    else p

/-- The parallel executor: the scheduler for all but the async nodes, then the async nodes one by
one. -/
def executeParallelWithAsync (e : Engine V) (walks : ℕ → IterOrder) (sorted : List NodeId)
    (dirty : Finset NodeId) : Engine V × List (AsyncSpawn V) :=
  let syncSorted := sorted.filter e.isSync
  let e :=
    if syncSorted = [] then e
    else
      let (store, effects) := Scheduler.executeParallel walks e.graph.entries e.graph.valueStore
        e.topology syncSorted dirty
      (e.setStore store).record effects
  sorted.foldl collectSpawns (e, [])

/-- Hand the futures over, in the order of the sorted list. The store is no longer looked at. -/
def spawnAsyncWork (e : Engine V) (spawns : List (AsyncSpawn V)) : Engine V :=
  { e with
    asyncManager := spawns.foldl (fun m s => m.spawn s.nodeId s.future s.policy s.groupId)
      e.asyncManager }

/-- Write the received values into the store, in order. A later value for a node overwrites an
earlier one of the same cycle, and nobody sees the earlier one. -/
def receive (store : ValueStore V) (updates : List (NodeId × V)) : ValueStore V :=
  updates.foldl (fun store update => store.setById update.1 update.2) store

/-- Drain all pending source updates into the store; the updated ids. Nobody asks whether the id is
registered, so a value for a node that is gone is written too. -/
def drainSources (e : Engine V) : Engine V × List NodeId :=
  ({ e with
      graph :=
        { e.graph with
          sourceRx := []
          valueStore := receive e.graph.valueStore e.graph.sourceRx } },
    e.graph.sourceRx.map Prod.fst)

/-- Drain async compute results into the store; the updated ids. They come after the sources, so a
result wins over a value sent to the same id. -/
def drainAsync (e : Engine V) : Engine V × List NodeId :=
  let (asyncManager, results) := e.asyncManager.drainResults
  ({ e with asyncManager := asyncManager }.setStore (receive e.graph.valueStore results),
    results.map Prod.fst)

/-- Everything after the drains: the dirty set, the sort, the execution, the futures to spawn. The
count of computed nodes is the length of the sorted list, whatever an executor left out. -/
def propagate (o : CycleOrder) (parallel : Bool) (e : Engine V) (updatedSources : Finset NodeId) :
    Engine V :=
  let dirty := e.topology.dirtySet o.sources updatedSources
  let sorted := e.topology.topoSort o.dirty dirty
  let p : Progress V :=
    if parallel then
      let (e, spawns) := e.executeParallelWithAsync o.waves sorted dirty
      ⟨e, spawns, ∅⟩
    else e.executeSequentialWithAsync sorted
  let e := p.engine.spawnAsyncWork p.spawns
  { e with
    metrics := e.metrics.recordCycle ⟨e.metrics.totalCycles + 1, sorted.length, p.timed⟩ }

/-- One cycle without the removals. When nothing was drained it returns before the metrics. -/
def runCycleImpl (o : CycleOrder) (parallel : Bool) (e : Engine V) : Engine V :=
  let (e, sourceIds) := e.drainSources
  let (e, asyncIds) := e.drainAsync
  let updatedSources := (sourceIds ++ asyncIds).toFinset
  if updatedSources = ∅ then e else e.propagate o parallel updatedSources

/-- Run a single propagation cycle. The removals come first, so a node whose handle has been dropped
is gone when the values that were sent to it are drained. -/
def runCycle (o : CycleOrder) (e : Engine V) : Engine V :=
  runCycleImpl o false e.drainPendingRemovals

/-- Run a propagation cycle with parallel execution on the thread pool. -/
def runCycleParallel (o : CycleOrder) (e : Engine V) : Engine V :=
  runCycleImpl o true e.drainPendingRemovals

end Engine

end ReactiveGraph
