import ReactiveGraph.Lib.Dataflow
import ReactiveGraph.Proof.Deactivation

/-!
# What a cycle does

A cycle writes values, records calls, spawns futures and counts itself; the graph it runs on stays
as it is (`SameFrame`). Executing one node is described once, by what it does to the store
(`nodeStore`) and which calls it makes there (`nodeEffects`, `nodeSpawns`): `executeNode_eq`. The
sequential executor is then a fold of `nodeStore`, and the library on evaluation in dependency order
applies to it, because what a node writes depends only on what it reads (`local_nodeStore`).

**From here on a cycle is spoken of in four terms.** `updated` are the ids it is going to find
updated, `received` is the engine once it has received everything, `Dirty` is being downstream of an
updated node, and `sortedOf` is the list it executes. The two executors are then one equation each:
the sequential one evaluates the list (`runCycleImpl_sequential`), the parallel one leaves what is
not async to the scheduler and triggers the rest (`runCycleImpl_parallel`). No later proof opens
`runCycleImpl`.

**`Regular`** is what an engine has to be for its cycles to run in dependency order: the topology
holds the active nodes, its edges are what removals leave of them, and it has no cycle. Every engine
of a run without dependency cycles is regular; under it every dirty node is sorted, and that is the
only place where acyclicity enters most of the results about cycles.

Purity of the nodes is asked for separately, and only where values are compared. A cycle whose nodes
look at the whole store still makes the calls that are said here; what it writes is then a matter of
the order.
-/

namespace ReactiveGraph

namespace Engine

variable {V : Type*} {e e' : Engine V}

/-! ## What a cycle leaves alone -/

structure SameFrame (e e' : Engine V) : Prop where
  entries : e'.graph.entries = e.graph.entries
  topology : e'.topology = e.topology
  active : e'.active = e.active
  guards : e'.guards = e.guards
  errorStrategies : e'.errorStrategies = e.errorStrategies
  pendingRemovals : e'.pendingRemovals = e.pendingRemovals
  bridge : e'.graph.bridge = e.graph.bridge

theorem SameFrame.refl (e : Engine V) : SameFrame e e := ⟨rfl, rfl, rfl, rfl, rfl, rfl, rfl⟩

theorem SameFrame.trans {e₁ e₂ e₃ : Engine V} (h : SameFrame e₁ e₂) (h' : SameFrame e₂ e₃) :
    SameFrame e₁ e₃ :=
  ⟨h'.entries.trans h.entries, h'.topology.trans h.topology, h'.active.trans h.active,
    h'.guards.trans h.guards, h'.errorStrategies.trans h.errorStrategies,
    h'.pendingRemovals.trans h.pendingRemovals, h'.bridge.trans h.bridge⟩

theorem SameFrame.strategyOf (h : SameFrame e e') : e'.strategyOf = e.strategyOf := by
  funext id
  rw [Engine.strategyOf, Engine.strategyOf, h.errorStrategies]

theorem Wired.sameFrame (hw : Wired e) (h : SameFrame e e') : Wired e' :=
  hw.congr h.topology h.active h.entries

/-- The engine with a store and with calls recorded. -/
theorem sameFrame_setStore_record (e : Engine V) (store : ValueStore V)
    (effects : List (Effect V)) : SameFrame e ((e.setStore store).record effects) :=
  ⟨rfl, rfl, rfl, rfl, rfl, rfl, rfl⟩

/-! ## One node -/

/-- The store after a node has been executed in `store`. The node is looked up in `e`, whose
registry and strategies do not change in the course of a cycle; the store is what does. -/
def nodeStore (e : Engine V) (id : NodeId) (store : ValueStore V) : ValueStore V :=
  match e.graph.entries.get id with
  | some entry =>
    if entry.kind = .compute then
      match entry.nodeImpl.compute entry.deps store with
      | some result => store.setById id result
      | none => if e.strategyOf id = .propagateError then store.remove id else store
    else store
  | none => store

/-- How often `compute` is called for a node: once, unless it is to be retried. -/
def calls (e : Engine V) (id : NodeId) (entry : NodeEntry V) (store : ValueStore V) : ℕ :=
  match e.strategyOf id with
  | .retry maxAttempts _ => (computeRetrying (entry.nodeImpl.compute entry.deps store) maxAttempts
      (maxAttempts + 1) 0).2
  | _ => 1

/-- The calls made for a node executed in `store`. -/
def nodeEffects (e : Engine V) (id : NodeId) (store : ValueStore V) : List (Effect V) :=
  match e.graph.entries.get id with
  | some entry =>
    match entry.kind with
    | .compute => [.computed id (store.reads entry.deps) (e.calls id entry store)]
    | .sink => [.emitted id (store.reads entry.deps)]
    | .asyncCompute => [.triggered id (store.reads entry.deps)]
    | .source => []
  | none => []

/-- The futures a node executed in `store` gives to spawn, one at most. -/
def nodeSpawns (e : Engine V) (id : NodeId) (store : ValueStore V) : List (AsyncSpawn V) :=
  match e.graph.entries.get id with
  | some entry =>
    if entry.kind = .asyncCompute then
      match entry.nodeImpl.computeAsync entry.deps store with
      | some future =>
        [⟨id, future, entry.nodeImpl.asyncPolicy, entry.nodeImpl.concurrencyGroupId⟩]
      | none => []
    else []
  | none => []

theorem SameFrame.nodeStore (h : SameFrame e e') : e'.nodeStore = e.nodeStore := by
  funext id store
  simp only [Engine.nodeStore, h.entries, h.strategyOf]

theorem SameFrame.nodeEffects (h : SameFrame e e') : e'.nodeEffects = e.nodeEffects := by
  funext id store
  simp only [Engine.nodeEffects, Engine.calls, h.entries, h.strategyOf]

theorem SameFrame.nodeSpawns (h : SameFrame e e') : e'.nodeSpawns = e.nodeSpawns := by
  funext id store
  simp only [Engine.nodeSpawns, h.entries]

/-- A node writes nothing under another id. -/
theorem framed_nodeStore (e : Engine V) : Dataflow.Framed ValueStore.getById e.nodeStore := by
  intro id store v hv
  unfold nodeStore
  split
  · split
    · split
      · exact ValueStore.getById_setById_of_ne _ _ hv
      · split
        · exact ValueStore.getById_remove_of_ne _ hv
        · rfl
    · rfl
  · rfl

/-- The value a node is given in `store`, if it has `own` there: what it computes, or what a failure
leaves it with. What a failure leaves is an argument, since the two executors and the activation
differ in it and in nothing else. -/
def nodeValue (e : Engine V) (afterFailure : NodeId → Option V → Option V) (id : NodeId)
    (store : ValueStore V) (own : Option V) : Option V :=
  match e.graph.entries.get id with
  | some entry =>
    if entry.kind = .compute then
      (entry.nodeImpl.compute entry.deps store).or (afterFailure id own)
    else own
  | none => own

/-- What the error strategy leaves a node with that has failed. -/
def strategyLeaves (e : Engine V) (id : NodeId) (own : Option V) : Option V :=
  if e.strategyOf id = .propagateError then none else own

theorem nodeValue_congr (hpure : ∀ id entry, e.graph.entries.get id = some entry →
    entry.nodeImpl.ReadsDeps entry.deps) (afterFailure : NodeId → Option V → Option V)
    {id : NodeId} {store store' : ValueStore V}
    (h : ∀ u ∈ e.graph.depsOf id, store.getById u = store'.getById u) (own : Option V) :
    e.nodeValue afterFailure id store own = e.nodeValue afterFailure id store' own := by
  unfold nodeValue
  cases hentry : e.graph.entries.get id with
  | none => rfl
  | some entry =>
    rw [Graph.depsOf_of_get hentry] at h
    simp only [hpure id entry hentry store store' h]

/-- **What a node writes depends only on what it reads.** In the library's terms each node is given
a value that is a function of its dependencies and of its own old value; the hypothesis is that
`compute` looks at nothing else. -/
theorem given_nodeStore (hpure : ∀ id entry, e.graph.entries.get id = some entry →
    entry.nodeImpl.ReadsDeps entry.deps) :
    Dataflow.Given ValueStore.getById e.graph.depsOf e.nodeStore (e.nodeValue e.strategyLeaves) where
  frame := framed_nodeStore e
  step_eq id store := by
    unfold nodeStore nodeValue strategyLeaves
    cases e.graph.entries.get id with
    | none => rfl
    | some entry =>
      simp only
      split
      · cases entry.nodeImpl.compute entry.deps store with
        | some result => exact ValueStore.getById_setById_self _ _ _
        | none =>
          simp only [Option.none_or]
          split
          · exact ValueStore.getById_remove_self _ _
          · rfl
      · rfl
  congr _ _ _ own h := nodeValue_congr hpure e.strategyLeaves h own

theorem local_nodeStore (hpure : ∀ id entry, e.graph.entries.get id = some entry →
    entry.nodeImpl.ReadsDeps entry.deps) :
    Dataflow.Local ValueStore.getById e.graph.depsOf e.nodeStore := (given_nodeStore hpure).local

/-- Trying again changes nothing about the result of a function. So retrying shows in the number of
calls and nowhere else. -/
theorem fst_computeRetrying (compute : Option V) (max fuel attempts : ℕ) :
    (computeRetrying compute max (fuel + 1) attempts).1 = compute := by
  induction fuel generalizing attempts with
  | zero =>
    cases compute with
    | none => simp only [computeRetrying]; split <;> rfl
    | some result => rfl
  | succ fuel ih =>
    cases compute with
    | none =>
      rw [computeRetrying]
      split
      · rfl
      · exact ih (attempts + 1)
    | some result => rfl

theorem record_nil (e : Engine V) : e.record [] = e := by
  rw [record, List.append_nil]

theorem setStore_self (e : Engine V) : e.setStore e.graph.valueStore = e := rfl

theorem executeComputeWithErrorHandling_eq {id : NodeId} {entry : NodeEntry V}
    (hentry : e.graph.entries.get id = some entry) (hk : entry.kind = .compute) :
    e.executeComputeWithErrorHandling id entry.deps (e.strategyOf id) =
      (e.setStore (e.nodeStore id e.graph.valueStore)).record
        (e.nodeEffects id e.graph.valueStore) := by
  simp only [executeComputeWithErrorHandling, nodeStore, nodeEffects, calls, hentry, hk, if_true]
  cases hs : e.strategyOf id with
  | propagateStale => cases entry.nodeImpl.compute entry.deps e.graph.valueStore <;> rfl
  | propagateError => cases entry.nodeImpl.compute entry.deps e.graph.valueStore <;> rfl
  | retry max backoff =>
    simp only [fst_computeRetrying]
    cases entry.nodeImpl.compute entry.deps e.graph.valueStore <;> rfl

/-- **Executing a node**: its store, its calls, its futures. One case for each kind and strategy,
gone through here and not again. -/
theorem executeNode_eq (p : Progress V) (id : NodeId) :
    (executeNode p id).engine = (p.engine.setStore
        (p.engine.nodeStore id p.engine.graph.valueStore)).record
          (p.engine.nodeEffects id p.engine.graph.valueStore) ∧
      (executeNode p id).spawns =
        p.spawns ++ p.engine.nodeSpawns id p.engine.graph.valueStore := by
  unfold executeNode
  cases hentry : p.engine.graph.entries.get id with
  | none =>
    simp only [nodeStore, nodeEffects, nodeSpawns, hentry, setStore_self, record_nil,
      List.append_nil, and_self]
  | some entry =>
    cases hk : entry.kind with
    | compute =>
      simp only [executeComputeWithErrorHandling_eq hentry hk, nodeSpawns, hentry, hk]
      simp
    | sink =>
      simp only [nodeStore, nodeEffects, nodeSpawns, hentry, hk]
      simp [setStore_self]
    | asyncCompute =>
      simp only [nodeStore, nodeEffects, nodeSpawns, hentry, hk, trigger, if_true]
      cases entry.nodeImpl.computeAsync entry.deps p.engine.graph.valueStore <;>
        simp [setStore_self]
    | source =>
      simp only [nodeStore, nodeEffects, nodeSpawns, hentry, hk]
      simp [setStore_self, record_nil]

/-! ## The sequential executor -/

open Dataflow in
/-- The store after the nodes of a list have been executed in order: the library's evaluation, with
the step of this engine. -/
def storeAfter (e : Engine V) (l : List NodeId) (store : ValueStore V) : ValueStore V :=
  evalAll e.nodeStore l store

/-- The calls made on the way. -/
def effectsAlong (e : Engine V) : List NodeId → ValueStore V → List (Effect V)
  | [], _ => []
  | id :: l, store => e.nodeEffects id store ++ e.effectsAlong l (e.nodeStore id store)

/-- The futures to spawn in the end. -/
def spawnsAlong (e : Engine V) : List NodeId → ValueStore V → List (AsyncSpawn V)
  | [], _ => []
  | id :: l, store => e.nodeSpawns id store ++ e.spawnsAlong l (e.nodeStore id store)

theorem SameFrame.along (h : SameFrame e e') :
    e'.effectsAlong = e.effectsAlong ∧ e'.spawnsAlong = e.spawnsAlong := by
  constructor <;>
  · funext l
    induction l with
    | nil => rfl
    | cons id l ih =>
      funext store
      simp only [effectsAlong, spawnsAlong, ih, h.nodeStore, h.nodeEffects, h.nodeSpawns]

theorem foldl_executeNode (l : List NodeId) (p : Progress V) :
    (l.foldl executeNode p).engine =
        (p.engine.setStore (p.engine.storeAfter l p.engine.graph.valueStore)).record
          (p.engine.effectsAlong l p.engine.graph.valueStore) ∧
      (l.foldl executeNode p).spawns =
        p.spawns ++ p.engine.spawnsAlong l p.engine.graph.valueStore := by
  induction l generalizing p with
  | nil => exact ⟨(record_nil _).symm, (List.append_nil _).symm⟩
  | cons id l ih =>
    obtain ⟨heng, hsp⟩ := executeNode_eq p id
    obtain ⟨h1, h2⟩ := ih (executeNode p id)
    have hframe : SameFrame p.engine (executeNode p id).engine := by
      rw [heng]
      exact sameFrame_setStore_record _ _ _
    rw [List.foldl_cons, h1, h2, storeAfter, hframe.nodeStore, hframe.along.1, hframe.along.2, heng,
      hsp]
    refine ⟨?_, ?_⟩
    · simp only [record, setStore, storeAfter, effectsAlong, Dataflow.evalAll_cons,
        List.append_assoc]
    · simp only [record, setStore, spawnsAlong, List.append_assoc]

theorem executeSequentialWithAsync_eq (e : Engine V) (sorted : List NodeId) :
    (e.executeSequentialWithAsync sorted).engine =
        (e.setStore (e.storeAfter sorted e.graph.valueStore)).record
          (e.effectsAlong sorted e.graph.valueStore) ∧
      (e.executeSequentialWithAsync sorted).spawns =
        e.spawnsAlong sorted e.graph.valueStore := by
  obtain ⟨h1, h2⟩ := foldl_executeNode sorted ⟨e, [], ∅⟩
  exact ⟨h1, by rw [executeSequentialWithAsync, h2, List.nil_append]⟩

/-! ## The parallel executor -/

theorem sameFrame_collectSpawns (l : List NodeId) (p : Engine V × List (AsyncSpawn V)) :
    SameFrame p.1 (l.foldl collectSpawns p).1 ∧
      (l.foldl collectSpawns p).1.graph.valueStore = p.1.graph.valueStore := by
  induction l generalizing p with
  | nil => exact ⟨.refl _, rfl⟩
  | cons id l ih =>
    have hstep : SameFrame p.1 (collectSpawns p id).1 ∧
        (collectSpawns p id).1.graph.valueStore = p.1.graph.valueStore := by
      unfold collectSpawns
      split
      · exact ⟨.refl _, rfl⟩
      · split
        · simp only [trigger]
          split <;> exact ⟨⟨rfl, rfl, rfl, rfl, rfl, rfl, rfl⟩, rfl⟩
        · exact ⟨.refl _, rfl⟩
    obtain ⟨hf, hs⟩ := ih (collectSpawns p id)
    exact ⟨hstep.1.trans hf, hs.trans hstep.2⟩

theorem sameFrame_executeParallelWithAsync (e : Engine V) (walks : ℕ → IterOrder)
    (sorted : List NodeId) (dirty : Finset NodeId) :
    SameFrame e (e.executeParallelWithAsync walks sorted dirty).1 := by
  unfold executeParallelWithAsync
  refine SameFrame.trans ?_ (sameFrame_collectSpawns sorted _).1
  split
  · exact .refl e
  · exact sameFrame_setStore_record _ _ _

/-! ## The cycle -/

theorem sameFrame_drainSources (e : Engine V) : SameFrame e e.drainSources.1 :=
  ⟨rfl, rfl, rfl, rfl, rfl, rfl, rfl⟩

theorem sameFrame_drainAsync (e : Engine V) : SameFrame e e.drainAsync.1 :=
  ⟨rfl, rfl, rfl, rfl, rfl, rfl, rfl⟩

theorem sameFrame_propagate (o : CycleOrder) (parallel : Bool) (e : Engine V)
    (updated : Finset NodeId) : SameFrame e (e.propagate o parallel updated) := by
  have hspawn : ∀ (e : Engine V) (spawns : List (AsyncSpawn V)) (m : CycleMetrics),
      SameFrame e { e.spawnAsyncWork spawns with
        metrics := (e.spawnAsyncWork spawns).metrics.recordCycle m } :=
    fun _ _ _ => ⟨rfl, rfl, rfl, rfl, rfl, rfl, rfl⟩
  cases parallel with
  | true =>
    exact (sameFrame_executeParallelWithAsync e _ _ _).trans (hspawn _ _ _)
  | false =>
    refine SameFrame.trans ?_ (hspawn _ _ _)
    simp only [Bool.false_eq_true, if_false]
    rw [(executeSequentialWithAsync_eq e _).1]
    exact sameFrame_setStore_record _ _ _

theorem sameFrame_runCycleImpl (o : CycleOrder) (parallel : Bool) (e : Engine V) :
    SameFrame e (runCycleImpl o parallel e) := by
  have h := (sameFrame_drainSources e).trans (sameFrame_drainAsync e.drainSources.1)
  unfold runCycleImpl
  simp only
  split
  · exact h
  · exact h.trans (sameFrame_propagate o parallel _ _)

/-! ## The shape of a cycle -/

/-- The nodes a cycle is going to find updated: those with a value in one of the two receiving ends.
What a drop of a handle removes at the start of the cycle may be among them. -/
def updated (e : Engine V) : Finset NodeId :=
  (e.graph.sourceRx.map Prod.fst ++ e.asyncManager.resultRx.map Prod.fst).toFinset

/-- The engine once it has received everything. Everything that a cycle does to the store after that
it does to nodes that are dirty. -/
def received (e : Engine V) : Engine V := e.drainSources.1.drainAsync.1

/-- The node is downstream of an updated one, in the topology the cycle begins with. An updated node
is dirty only if it is downstream of one itself. -/
def Dirty (e : Engine V) (v : NodeId) : Prop := ∃ s ∈ e.updated, e.topology.Downstream s v

/-- The nodes of the cycle in the order they are sorted in. -/
def sortedOf (o : CycleOrder) (e : Engine V) : List NodeId :=
  e.topology.topoSort o.dirty (e.topology.dirtySet o.sources e.updated)

theorem mem_dirty {o : CycleOrder} {v : NodeId} :
    v ∈ e.topology.dirtySet o.sources e.updated ↔ e.Dirty v := Topology.mem_dirtySet

theorem sameFrame_received (e : Engine V) : SameFrame e e.received :=
  (sameFrame_drainSources e).trans (sameFrame_drainAsync e.drainSources.1)

theorem store_received (e : Engine V) : e.received.graph.valueStore =
    receive e.graph.valueStore (e.graph.sourceRx ++ e.asyncManager.resultRx) :=
  List.foldl_append.symm

theorem getById_receive_of_notMem {updates : List (NodeId × V)} {id : NodeId}
    (h : id ∉ updates.map Prod.fst) (store : ValueStore V) :
    (receive store updates).getById id = store.getById id := by
  induction updates generalizing store with
  | nil => rfl
  | cons u updates ih =>
    rw [List.map_cons, List.mem_cons, not_or] at h
    exact (ih h.2 _).trans (ValueStore.getById_setById_of_ne _ _ h.1)

/-- A node that was not updated has the value it had. -/
theorem getById_received (e : Engine V) {id : NodeId} (h : id ∉ e.updated) :
    e.received.graph.valueStore.getById id = e.graph.valueStore.getById id := by
  rw [store_received]
  refine getById_receive_of_notMem ?_ _
  rwa [List.map_append, ← List.mem_toFinset]

theorem runCycleImpl_eq (o : CycleOrder) (parallel : Bool) (e : Engine V) :
    runCycleImpl o parallel e =
      if e.updated = ∅ then e.received else e.received.propagate o parallel e.updated := rfl

/-- Without updates nothing is dirty. -/
theorem sortedOf_of_empty {o : CycleOrder} (h : e.updated = ∅) :
    e.topology.dirtySet o.sources e.updated = ∅ ∧ e.sortedOf o = [] := by
  have hdirty : e.topology.dirtySet o.sources e.updated = ∅ := by
    refine Finset.eq_empty_of_forall_notMem fun v hv => ?_
    obtain ⟨s, hs, -⟩ := mem_dirty.mp hv
    rw [h] at hs
    exact Finset.notMem_empty s hs
  exact ⟨hdirty, by rw [sortedOf, hdirty]; rfl⟩

/-- What an engine has to be for its cycles to run in dependency order. -/
structure Regular (e : Engine V) : Prop where
  wired : Wired e
  edges : e.EdgesOk
  acyclic : Dag.Acyclic fun u v => u ∈ e.topology.depsOf v

/-- Removals keep an engine regular, though not exact: so the hypotheses are those of the state
before the removals, and the conclusion is about the one the cycle works on. -/
theorem Regular.drainPendingRemovals (hw : Wired e) (hex : Exact e.topology)
    (hac : Dag.Acyclic fun u v => u ∈ e.topology.depsOf v) : Regular e.drainPendingRemovals where
  wired := hw.drainPendingRemovals
  edges := (EdgesOk.of_exact hex).drainPendingRemovals
  acyclic := by
    refine hac.mono fun u v huv => ?_
    rcases (shrinks_drainPendingRemovals e).depsOf v with h | h
    · rwa [h] at huv
    · rw [h] at huv
      exact absurd huv List.not_mem_nil

section Regular

variable (h : Regular e)

include h

theorem Regular.active_of_mem_dependentsOf {u v : NodeId} (huv : v ∈ e.topology.dependentsOf u) :
    v ∈ e.active := by
  rw [← h.wired.keys]
  by_contra hnot
  have hmem := h.edges.1.mem_depsOf huv
  rw [Topology.depsOf_of_notMem hnot] at hmem
  exact List.not_mem_nil hmem

/-- A dirty node is an active one. -/
theorem Regular.active_of_dirty {v : NodeId} (hv : e.Dirty v) : v ∈ e.active := by
  obtain ⟨s, -, hsv⟩ := hv
  obtain ⟨u, -, huv⟩ := Relation.TransGen.tail'_iff.mp hsv
  exact h.active_of_mem_dependentsOf huv

theorem Regular.depsOf_of_dirty {v : NodeId} (hv : e.Dirty v) :
    e.graph.depsOf v = e.topology.depsOf v := (h.wired.depsOf (h.active_of_dirty hv)).symm

theorem Regular.exactOn_dirtySet (o : CycleOrder) : Kahn.ExactOn e.topology.depsOf
    e.topology.dependentsOf (e.topology.dirtySet o.sources e.updated) :=
  h.edges.exactOn fun v hv => by
    rw [h.wired.keys]
    exact h.active_of_dirty (mem_dirty.mp hv)

/-- **Every dirty node is sorted**, and no other. The edges among dirty nodes are exact since dirty
nodes are in the topology, and no cycle keeps one back. -/
theorem Regular.mem_sortedOf {o : CycleOrder} {v : NodeId} : v ∈ e.sortedOf o ↔ e.Dirty v :=
  (Topology.mem_topoSort h.edges.1 (h.exactOn_dirtySet o) h.acyclic).trans mem_dirty

theorem Regular.nodup_sortedOf (o : CycleOrder) : (e.sortedOf o).Nodup :=
  (Topology.sorted_topoSort h.edges.1 o.dirty _).nodup

theorem Regular.ordered_sortedOf (o : CycleOrder) :
    Dag.Ordered e.graph.depsOf (· ∈ e.sortedOf o) (e.sortedOf o) := by
  refine (Topology.sorted_topoSort h.edges.1 o.dirty _).ordered.mono (fun v hv u hu => ?_)
    fun u hu => mem_dirty.mpr (h.mem_sortedOf.mp hu)
  rwa [← h.depsOf_of_dirty (h.mem_sortedOf.mp hv)]

end Regular

theorem propagate_sequential (o : CycleOrder) (e : Engine V) (updated : Finset NodeId) :
    (e.propagate o false updated).graph = (e.executeSequentialWithAsync (e.topology.topoSort o.dirty
        (e.topology.dirtySet o.sources updated))).engine.graph ∧
      (e.propagate o false updated).effects = (e.executeSequentialWithAsync
        (e.topology.topoSort o.dirty (e.topology.dirtySet o.sources updated))).engine.effects := by
  simp only [propagate, Bool.false_eq_true, if_false, spawnAsyncWork, and_self]

theorem propagate_parallel (o : CycleOrder) (e : Engine V) (updated : Finset NodeId) :
    (e.propagate o true updated).graph = (e.executeParallelWithAsync o.waves
        (e.topology.topoSort o.dirty (e.topology.dirtySet o.sources updated))
        (e.topology.dirtySet o.sources updated)).1.graph ∧
      (e.propagate o true updated).effects = (e.executeParallelWithAsync o.waves
        (e.topology.topoSort o.dirty (e.topology.dirtySet o.sources updated))
        (e.topology.dirtySet o.sources updated)).1.effects := by
  simp only [propagate, if_true, spawnAsyncWork, and_self]

/-- **A sequential cycle** executes the sorted nodes one after the other. True of every engine and
every walk; with nothing updated the list is empty, so the case in which the source returns early
needs no mention. -/
theorem runCycleImpl_sequential (o : CycleOrder) (e : Engine V) :
    (runCycleImpl o false e).graph.valueStore =
        e.received.storeAfter (e.sortedOf o) e.received.graph.valueStore ∧
      (runCycleImpl o false e).effects =
        e.effects ++ e.received.effectsAlong (e.sortedOf o) e.received.graph.valueStore := by
  rw [runCycleImpl_eq]
  split
  · next h =>
    rw [(sortedOf_of_empty h).2]
    exact ⟨rfl, (List.append_nil _).symm⟩
  · obtain ⟨hgraph, heffects⟩ := propagate_sequential o e.received e.updated
    obtain ⟨h, -⟩ := executeSequentialWithAsync_eq e.received (e.received.topology.topoSort o.dirty
      (e.received.topology.dirtySet o.sources e.updated))
    rw [hgraph, heffects, h]
    exact ⟨rfl, rfl⟩

/-- The pass over the async nodes adds triggers only, and of nodes of its list that are async. It
reads the store and does not write it. -/
theorem effects_collectSpawns (l : List NodeId) (p : Engine V × List (AsyncSpawn V)) :
    ∃ tail, (l.foldl collectSpawns p).1.effects = p.1.effects ++ tail ∧
      ∀ effect ∈ tail, ∃ id reads, effect = .triggered id reads ∧ id ∈ l ∧
        p.1.isSync id = false := by
  induction l generalizing p with
  | nil => exact ⟨[], (List.append_nil _).symm, by simp⟩
  | cons id l ih =>
    -- one node: a trigger, if it is async, and nothing else
    have hstep : ∃ tail, (collectSpawns p id).1.effects = p.1.effects ++ tail ∧
        ∀ effect ∈ tail, ∃ reads, effect = .triggered id reads ∧ p.1.isSync id = false := by
      unfold collectSpawns isSync
      cases hentry : p.1.graph.entries.get id with
      | none => exact ⟨[], (List.append_nil _).symm, by simp⟩
      | some entry =>
        by_cases hk : entry.kind = .asyncCompute
        · refine ⟨[.triggered id (p.1.graph.valueStore.reads entry.deps)], ?_, ?_⟩
          · simp only [if_pos hk, trigger]
            split <;> rfl
          · simp [hk]
        · simp only [if_neg hk]
          exact ⟨[], (List.append_nil _).symm, by simp⟩
    obtain ⟨head, hhead, hhead'⟩ := hstep
    obtain ⟨tail, htail, htail'⟩ := ih (collectSpawns p id)
    have hframe := (sameFrame_collectSpawns [id] p).1
    refine ⟨head ++ tail, by rw [List.foldl_cons, htail, hhead, List.append_assoc],
      fun effect heffect => ?_⟩
    rcases List.mem_append.mp heffect with h | h
    · obtain ⟨reads, rfl, hsync⟩ := hhead' effect h
      exact ⟨id, reads, rfl, List.mem_cons_self, hsync⟩
    · obtain ⟨id', reads, rfl, hmem, hsync⟩ := htail' effect h
      refine ⟨id', reads, rfl, List.mem_cons_of_mem _ hmem, ?_⟩
      rw [← hsync, isSync, isSync]
      exact congrArg (fun m => match FinMap.get m id' with
        | some entry => decide (entry.kind ≠ NodeKind.asyncCompute)
        | none => true) hframe.entries.symm

/-- With nothing to run the scheduler does nothing. -/
theorem executeParallelWithAsync_eq (e : Engine V) (walks : ℕ → IterOrder)
    (sorted : List NodeId) (dirty : Finset NodeId) :
    e.executeParallelWithAsync walks sorted dirty =
      sorted.foldl collectSpawns
        ((e.setStore (Scheduler.executeParallel walks e.graph.entries e.graph.valueStore e.topology
          (sorted.filter e.isSync) dirty).1).record
            (Scheduler.executeParallel walks e.graph.entries e.graph.valueStore e.topology
          (sorted.filter e.isSync) dirty).2, []) := by
  unfold executeParallelWithAsync
  by_cases h : sorted.filter e.isSync = []
  · simp only [h, if_true]
    congr 2
    exact (record_nil e).symm
  · simp only [h, if_false]

/-- **A parallel cycle** leaves the sorted nodes that are not async to the scheduler, and triggers
the async ones afterwards. The triggers are not written out: the results about parallel cycles are
about the store and about what is computed and emitted. -/
theorem runCycleImpl_parallel (o : CycleOrder) (e : Engine V) :
    ∃ tail, (∀ effect ∈ tail, ∃ id reads, effect = .triggered id reads ∧
        id ∈ e.sortedOf o ∧ e.isSync id = false) ∧
      (runCycleImpl o true e).graph.valueStore =
        (Scheduler.executeParallel o.waves e.graph.entries e.received.graph.valueStore e.topology
          ((e.sortedOf o).filter e.isSync) (e.topology.dirtySet o.sources e.updated)).1 ∧
      (runCycleImpl o true e).effects = e.effects ++
        (Scheduler.executeParallel o.waves e.graph.entries e.received.graph.valueStore e.topology
          ((e.sortedOf o).filter e.isSync) (e.topology.dirtySet o.sources e.updated)).2 ++ tail := by
  rw [runCycleImpl_eq]
  split
  · next h =>
    rw [(sortedOf_of_empty h).2]
    exact ⟨[], by simp, rfl, by rw [List.append_nil]; exact (List.append_nil _).symm⟩
  · obtain ⟨hgraph, heffects⟩ := propagate_parallel o e.received e.updated
    rw [hgraph, heffects, executeParallelWithAsync_eq]
    obtain ⟨tail, heq, htail⟩ := effects_collectSpawns (e.sortedOf o)
      ((e.received.setStore (Scheduler.executeParallel o.waves e.graph.entries
        e.received.graph.valueStore e.topology ((e.sortedOf o).filter e.isSync)
        (e.topology.dirtySet o.sources e.updated)).1).record
          (Scheduler.executeParallel o.waves e.graph.entries e.received.graph.valueStore e.topology
          ((e.sortedOf o).filter e.isSync) (e.topology.dirtySet o.sources e.updated)).2, [])
    exact ⟨tail, htail, (sameFrame_collectSpawns (e.sortedOf o) _).2, heq⟩

end Engine

end ReactiveGraph
