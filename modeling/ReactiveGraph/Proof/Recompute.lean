import ReactiveGraph.Proof.AsyncManager
import ReactiveGraph.Proof.World

/-!
# Incremental propagation is recomputation

In an engine nothing is ever removed from, the store holds for every active compute node what its
`compute` gives on that same store, whenever it gives anything (`Recomputed`). Three things write to
the store and each keeps this for its own reason. An activation computes new nodes after their
dependencies, and writes no old node. The drains at the start of a cycle write sources and async
nodes only, which `FromOutside` says of everything that is on its way. And the rest of the cycle
recomputes exactly what is downstream of those, in dependency order; what is not downstream has the
value and reads the values it had.

**Recomputing is the specification.** `Recomputed` mentions neither cycles nor updates: it is what
one would find by computing every active node anew from the values the store has. That an engine
which only ever recomputes what is downstream of an update comes to the same is the result.

A node whose `compute` gives nothing is not spoken of. It keeps the last value it had, under the
default strategy, and what that was computed from may be long gone; under the other strategies it
may have none.

**What the run may do.** It may register, merge, activate, send to sources, let tasks complete and
run sequential cycles, in any order and number. It may not drop a handle: a node that is registered
anew would not know that its dependents have to be computed. It may not use the thread pool, which
leaves out nodes behind dirty async ones. The registry stays acyclic, dependencies are registered
before what reads them is activated, and `compute` is pure.
-/

namespace ReactiveGraph

/-! ## Whose work it is -/

namespace AsyncManager

variable {F : Type*} {m : AsyncManager F} {P : NodeId → Prop}

/-- Futures have been spawned for nodes satisfying `P` only. With well-formedness this bounds
everything the manager can hand out: tasks, results and queued work are for nodes it knows. -/
structure Owned (P : NodeId → Prop) (m : AsyncManager F) : Prop where
  wf : m.WF
  owner : ∀ id, (m.policyOf id).isSome → P id

theorem Owned.new : Owned P (new : AsyncManager F) :=
  ⟨.new, fun id h => by simp [policyOf, AsyncManager.new] at h⟩

theorem Owned.mono {Q : NodeId → Prop} (h : Owned P m) (hPQ : ∀ id, P id → Q id) : Owned Q m :=
  ⟨h.wf, fun id hid => hPQ id (h.owner id hid)⟩

theorem Owned.result (h : Owned P m) {r : NodeId × F} (hr : r ∈ m.resultRx) : P r.1 :=
  h.owner r.1 (mem_keys_iff_policyOf.mp (h.wf.result_known r hr))

theorem Owned.spawn (h : Owned P m) {n : NodeId} (hn : P n) (f : F) (policy : AsyncPolicy)
    (groupId : Option ℕ) : Owned P (m.spawn n f policy groupId) := by
  refine ⟨h.wf.spawn n f policy groupId, fun id hid => ?_⟩
  by_cases heq : id = n
  · rwa [heq]
  · rw [policyOf_spawn, policyOf, get_record_of_ne heq] at hid
    exact h.owner id hid

/-- A list of spawns, each with its own node, future, policy and group. -/
theorem Owned.spawnAll {α : Type*} (h : Owned P m) (node : α → NodeId) (future : α → F)
    (policy : α → AsyncPolicy) (groupId : α → Option ℕ) (l : List α)
    (hl : ∀ a ∈ l, P (node a)) :
    Owned P (l.foldl (fun m a => m.spawn (node a) (future a) (policy a) (groupId a)) m) := by
  induction l generalizing m with
  | nil => exact h
  | cons a l ih =>
    exact ih (h.spawn (hl a List.mem_cons_self) _ _ _) fun b hb => hl b (List.mem_cons_of_mem _ hb)

theorem Owned.drainResults (h : Owned P m) : Owned P m.drainResults.1 :=
  ⟨h.wf.drainResults, fun id hid => h.owner id (by
    rwa [(SameProfile.drainResults m).policyOf] at hid)⟩

theorem Owned.complete (h : Owned P m) (id : TaskId) : Owned P (m.complete id) :=
  ⟨h.wf.complete id, fun n hn => h.owner n (by rwa [policyOf_complete] at hn)⟩

theorem Owned.createGroup (h : Owned P m) (max : ℕ) : Owned P (m.createGroup max).1 :=
  ⟨h.wf.createGroup max, h.owner⟩

end AsyncManager

namespace Engine

variable {V : Type*} {e e' : Engine V}

/-- What is on its way to the store is addressed to sources and to async nodes, and so never
overwrites what was computed. -/
structure FromOutside (e : Engine V) : Prop where
  sources : ∀ u ∈ e.graph.sourceRx, HasKind e.graph u.1 .source
  results : e.asyncManager.Owned fun id => HasKind e.graph id .asyncCompute

theorem FromOutside.not_compute (h : e.FromOutside) {id : NodeId} (hid : id ∈ e.updated) :
    ¬ HasKind e.graph id .compute := by
  intro hk
  rw [updated, List.mem_toFinset, List.mem_append] at hid
  rcases hid with hid | hid <;> obtain ⟨u, hu, rfl⟩ := List.mem_map.mp hid
  · exact absurd (hk.unique (h.sources u hu)) (by decide)
  · exact absurd (hk.unique (h.results.result hu)) (by decide)

theorem HasKind.registerAll {id : NodeId} {kind : NodeKind} (h : HasKind e.graph id kind)
    (descs : List (NodeDescriptor V)) : HasKind (e.registerAll descs).graph id kind := by
  obtain ⟨entry, hentry, hk⟩ := h
  exact ⟨_, registerAll_of_get hentry descs, hk⟩

theorem FromOutside.registerAll (h : e.FromOutside) (descs : List (NodeDescriptor V)) :
    (e.registerAll descs).FromOutside where
  sources u hu := by
    rw [(graph_registerAll e descs).2.1] at hu
    exact (h.sources u hu).registerAll descs
  results := h.results.mono fun _ hid => hid.registerAll descs

theorem FromOutside.sendSource (h : e.FromOutside) {id : NodeId}
    (hid : HasKind e.graph id .source) (value : V) :
    ∀ u ∈ (e.graph.sendSource id value).sourceRx, HasKind e.graph u.1 .source := by
  intro u hu
  unfold Graph.sendSource at hu
  split at hu
  · rcases List.mem_append.mp hu with hu | hu
    · exact h.sources u hu
    · rw [List.mem_singleton.mp hu]
      exact hid
  · exact h.sources u hu

theorem FromOutside.send (h : e.FromOutside) {id : NodeId} (hid : HasKind e.graph id .source)
    (value : V) : (e.send id value).FromOutside := by
  have hentries := Graph.entries_sendSource e.graph id value
  refine ⟨fun u hu => ?_, h.results.mono fun id hid => ?_⟩
  · exact (HasKind.congr hentries u.1 .source).mpr (h.sendSource hid value u hu)
  · exact (HasKind.congr hentries id .asyncCompute).mpr hid

/-- Only sources have an activation callback that is run. -/
theorem FromOutside.activate (h : e.FromOutside) (id : NodeId) : (e.activate id).FromOutside := by
  refine (activateNode_induction (P := FromOutside)
    (fun _ _ _ h _ _ => ⟨h.sources, h.results⟩) ?_ _ id h).1
  intro e id entry h _ hentry
  cases hk : entry.kind with
  | source =>
    simp only [finishActivation, invokeActivate]
    split
    · next values _ =>
      -- the callback's values go to the source's own id
      have hfold := Graph.foldl_sendSource_induction (g := e.graph) (P := fun graph =>
        FromOutside { e with graph := graph } ∧ graph.entries = e.graph.entries) (n := id)
        (fun graph value hg => ?_) values ⟨h, rfl⟩
      · exact ⟨hfold.1.sources, hfold.1.results⟩
      · refine ⟨FromOutside.send (e := { e with graph := graph }) hg.1 ?_ value, ?_⟩
        · exact (HasKind.congr hg.2 id .source).mpr ⟨entry, hentry, hk⟩
        · rw [Graph.entries_sendSource, hg.2]
    · exact h
  | compute =>
    simp only [finishActivation, initialCompute]
    split
    · split
      · split <;> exact ⟨h.sources, h.results⟩
      · exact h
    · exact h
  | sink => exact h
  | asyncCompute => exact h

theorem FromOutside.activateSinks (h : e.FromOutside) (hp : e.pendingRemovals = [])
    (ids : List NodeId) : (ids.foldl activateIfSink e).FromOutside := by
  induction ids generalizing e with
  | nil => exact h
  | cons id ids ih =>
    rw [List.foldl_cons]
    obtain ⟨-, heq⟩ | ⟨-, heq⟩ := activateIfSink_cases hp id
    · rw [heq]
      exact ih (h.activate id) ((sameRest_activate e id).pendingRemovals.trans hp)
    · rw [heq]
      exact ih h hp

/-- The future is one that an async node has given. -/
def FutureOf (e : Engine V) (s : AsyncSpawn V) : Prop :=
  ∃ entry store, e.graph.entries.get s.nodeId = some entry ∧ entry.kind = .asyncCompute ∧
    entry.nodeImpl.computeAsync entry.deps store = some s.future

theorem FutureOf.hasKind {s : AsyncSpawn V} (h : e.FutureOf s) :
    HasKind e.graph s.nodeId .asyncCompute := by
  obtain ⟨entry, -, hentry, hk, -⟩ := h
  exact ⟨entry, hentry, hk⟩

/-- The same, spawned with the policy and the group of the node. -/
def SpawnOf (e : Engine V) (s : AsyncSpawn V) : Prop :=
  ∃ entry store, e.graph.entries.get s.nodeId = some entry ∧ entry.kind = .asyncCompute ∧
    entry.nodeImpl.computeAsync entry.deps store = some s.future ∧
    s.policy = entry.nodeImpl.asyncPolicy ∧ s.groupId = entry.nodeImpl.concurrencyGroupId

theorem SpawnOf.futureOf {s : AsyncSpawn V} (h : e.SpawnOf s) : e.FutureOf s := by
  obtain ⟨entry, store, hentry, hk, hfuture, -⟩ := h
  exact ⟨entry, store, hentry, hk, hfuture⟩

theorem SpawnOf.congr {s : AsyncSpawn V} (h : e'.graph.entries = e.graph.entries) :
    e'.SpawnOf s ↔ e.SpawnOf s := by
  unfold SpawnOf
  rw [h]

theorem mem_nodeSpawns {id : NodeId} {store : ValueStore V} {s : AsyncSpawn V}
    (h : s ∈ e.nodeSpawns id store) : e.SpawnOf s := by
  unfold nodeSpawns at h
  split at h
  · next entry hentry =>
    split at h
    · next hk =>
      split at h
      · next future hfuture =>
        rw [List.mem_singleton.mp h]
        exact ⟨entry, store, hentry, hk, hfuture, rfl, rfl⟩
      · exact absurd h List.not_mem_nil
    · exact absurd h List.not_mem_nil
  · exact absurd h List.not_mem_nil

theorem mem_spawnsAlong {l : List NodeId} {store : ValueStore V} {s : AsyncSpawn V}
    (h : s ∈ e.spawnsAlong l store) : e.SpawnOf s := by
  induction l generalizing store with
  | nil => exact absurd h List.not_mem_nil
  | cons id l ih =>
    rcases List.mem_append.mp h with h | h
    · exact mem_nodeSpawns h
    · exact ih h

/-- What the pass over the async nodes collects is what they give. -/
theorem mem_collectSpawns (l : List NodeId) (p : Engine V × List (AsyncSpawn V)) :
    ∀ s ∈ (l.foldl collectSpawns p).2, s ∈ p.2 ∨ p.1.SpawnOf s := by
  induction l generalizing p with
  | nil => exact fun s hs => Or.inl hs
  | cons id l ih =>
    have hstep : ∀ s ∈ (collectSpawns p id).2, s ∈ p.2 ∨ p.1.SpawnOf s := by
      intro s hs
      unfold collectSpawns at hs
      split at hs
      · exact Or.inl hs
      · next entry hentry =>
        split at hs
        · next hk =>
          refine (List.mem_append.mp hs).imp_right fun hs => ?_
          simp only [trigger] at hs
          split at hs
          · next future hfuture =>
            rw [List.mem_singleton.mp hs]
            exact ⟨entry, _, hentry, hk, hfuture, rfl, rfl⟩
          · exact absurd hs List.not_mem_nil
        · exact Or.inl hs
    intro s hs
    rcases ih (collectSpawns p id) s hs with hs | hs
    · exact hstep s hs
    · exact Or.inr ((SpawnOf.congr (sameFrame_collectSpawns [id] p).1.entries).mp hs)

/-- Collecting the spawns leaves the source channel and the manager alone. -/
theorem channels_foldl_collectSpawns (l : List NodeId) (p : Engine V × List (AsyncSpawn V)) :
    (l.foldl collectSpawns p).1.graph.sourceRx = p.1.graph.sourceRx ∧
      (l.foldl collectSpawns p).1.asyncManager = p.1.asyncManager := by
  induction l generalizing p with
  | nil => exact ⟨rfl, rfl⟩
  | cons id l ih =>
    obtain ⟨hrx, hmanager⟩ := ih (collectSpawns p id)
    have hstep : (collectSpawns p id).1.graph.sourceRx = p.1.graph.sourceRx ∧
        (collectSpawns p id).1.asyncManager = p.1.asyncManager := by
      unfold collectSpawns
      split
      · exact ⟨rfl, rfl⟩
      · split
        · simp only [trigger]
          split <;> exact ⟨rfl, rfl⟩
        · exact ⟨rfl, rfl⟩
    exact ⟨hrx.trans hstep.1, hmanager.trans hstep.2⟩

/-- What a cycle that finds the listed nodes updated is going to spawn. It depends on the executor,
since the two look at async nodes at different times. -/
def spawnsOf (o : CycleOrder) (parallel : Bool) (e : Engine V) (updated : Finset NodeId) :
    List (AsyncSpawn V) :=
  let dirty := e.topology.dirtySet o.sources updated
  let sorted := e.topology.topoSort o.dirty dirty
  if parallel then (e.executeParallelWithAsync o.waves sorted dirty).2
  else (e.executeSequentialWithAsync sorted).spawns

theorem mem_spawnsOf {o : CycleOrder} {parallel : Bool} {updated : Finset NodeId}
    {s : AsyncSpawn V} (h : s ∈ e.spawnsOf o parallel updated) : e.SpawnOf s := by
  cases parallel with
  | false =>
    simp only [spawnsOf, Bool.false_eq_true, if_false, (executeSequentialWithAsync_eq e _).2] at h
    exact mem_spawnsAlong h
  | true =>
    simp only [spawnsOf, if_true, executeParallelWithAsync_eq] at h
    exact (mem_collectSpawns _ _ s h).resolve_left List.not_mem_nil

/-- The executors touch neither the channels nor the manager; the manager changes by the spawns at
the end. -/
theorem channels_propagate (o : CycleOrder) (parallel : Bool) (e : Engine V)
    (updated : Finset NodeId) : (e.propagate o parallel updated).graph.sourceRx = e.graph.sourceRx ∧
      (e.propagate o parallel updated).asyncManager =
        (e.spawnsOf o parallel updated).foldl
          (fun m s => m.spawn s.nodeId s.future s.policy s.groupId) e.asyncManager := by
  cases parallel with
  | false =>
    obtain ⟨heng, -⟩ := executeSequentialWithAsync_eq e
      (e.topology.topoSort o.dirty (e.topology.dirtySet o.sources updated))
    obtain ⟨hgraph, -⟩ := propagate_sequential o e updated
    refine ⟨by rw [hgraph, heng]; rfl, ?_⟩
    simp only [propagate, spawnsOf, Bool.false_eq_true, if_false, spawnAsyncWork, heng]
    rfl
  | true =>
    obtain ⟨hgraph, -⟩ := propagate_parallel o e updated
    refine ⟨?_, ?_⟩
    · rw [hgraph, executeParallelWithAsync_eq, (channels_foldl_collectSpawns _ _).1]
      rfl
    · simp only [propagate, spawnsOf, if_true, spawnAsyncWork]
      rw [executeParallelWithAsync_eq, (channels_foldl_collectSpawns _ _).2]
      rfl

/-- After a cycle the source channel is empty, and only what the drain and the spawns of async nodes
did has happened to the manager. -/
theorem channels_runCycleImpl (o : CycleOrder) (parallel : Bool) (e : Engine V) :
    (runCycleImpl o parallel e).graph.sourceRx = [] ∧
      (runCycleImpl o parallel e).asyncManager =
        (e.received.spawnsOf o parallel e.updated).foldl
          (fun m s => m.spawn s.nodeId s.future s.policy s.groupId)
          e.asyncManager.drainResults.1 := by
  rw [runCycleImpl_eq]
  split
  · next h =>
    have hsorted : e.received.topology.topoSort o.dirty
        (e.received.topology.dirtySet o.sources e.updated) = [] := (sortedOf_of_empty h).2
    refine ⟨rfl, ?_⟩
    cases parallel <;>
      · simp only [spawnsOf, hsorted]
        rfl
  · exact channels_propagate o parallel e.received e.updated

/-- What a cycle spawns comes from the nodes that are registered when it starts. -/
theorem mem_spawnsOf_received {o : CycleOrder} {parallel : Bool} {s : AsyncSpawn V}
    (h : s ∈ e.received.spawnsOf o parallel e.updated) : e.SpawnOf s :=
  (SpawnOf.congr (sameFrame_received e).entries).mp (mem_spawnsOf h)

theorem FromOutside.runCycleImpl (h : e.FromOutside) (o : CycleOrder) :
    (runCycleImpl o false e).FromOutside := by
  have hkind : ∀ id kind, HasKind (Engine.runCycleImpl o false e).graph id kind ↔
      HasKind e.graph id kind := HasKind.congr (sameFrame_runCycleImpl o false e).entries
  obtain ⟨hrx, hm⟩ := channels_runCycleImpl o false e
  refine ⟨by simp [hrx], AsyncManager.Owned.mono ?_ fun id hid => (hkind id _).mpr hid⟩
  rw [hm]
  exact h.results.drainResults.spawnAll _ _ _ _ _ fun s hs =>
    (mem_spawnsOf_received hs).futureOf.hasKind

/-! ## The invariant -/

/-- Whenever an active compute node has something to compute from the store as it is, the store
holds that. An inactive node is not spoken of, since nothing computes it. -/
def Recomputed (e : Engine V) : Prop :=
  ∀ v entry value, v ∈ e.active → e.graph.entries.get v = some entry → entry.kind = .compute →
    entry.nodeImpl.compute entry.deps e.graph.valueStore = some value →
      e.graph.valueStore.getById v = some value

theorem Recomputed.registerAll (h : e.Recomputed) (hok : e.Ok)
    (descs : List (NodeDescriptor V)) : (e.registerAll descs).Recomputed := by
  intro v entry value hv hentry hk hvalue
  obtain ⟨old, hold⟩ := FinMap.exists_get_of_mem_keys (hok.active_subset hv)
  obtain rfl := Option.some.inj ((registerAll_of_get hold descs).symm.trans hentry)
  rw [(graph_registerAll e descs).1] at hvalue ⊢
  exact h v old value hv hold hk hvalue

/-- **Activation keeps it**: old nodes have kept their values and those of their dependencies, and
new ones have just been computed. That the dependencies of an old node are not new rests on their
being active, which `Ok` has from the run. -/
theorem Recomputed.grown {B : NodeId → Prop} (h : e.Recomputed) (hok : e.Ok)
    (hs : Sound e.graph) (hg : Grown B e e') : e'.Recomputed := by
  intro v entry value hv hentry hk hvalue
  rw [hg.entries] at hentry
  by_cases hva : v ∈ e.active
  · rw [hg.store v (Or.inr hva)]
    refine h v entry value hva hentry hk ?_
    rw [← hvalue]
    refine (hs.pure v entry hentry).congr _ _ fun u hu => (hg.store u (Or.inr ?_)).symm
    exact hok.closed v hva u (by rwa [Graph.depsOf_of_get hentry])
  · have hcomp := hg.computed hs v entry hv hva hentry hk
    rwa [Computed, hvalue, Option.some_or] at hcomp

/-- What reads an updated or a dirty node is dirty. -/
theorem Ok.dirty_of_reads (h : e.Ok) {u v : NodeId} (hv : v ∈ e.active)
    (huv : u ∈ e.graph.depsOf v) (hu : u ∈ e.updated ∨ e.Dirty u) : e.Dirty v := by
  have hedge : v ∈ e.topology.dependentsOf u := by
    refine List.count_pos_iff.mp ?_
    rw [h.exact, h.wired.depsOf hv]
    exact List.count_pos_iff.mpr huv
  rcases hu with hu | ⟨s, hs, hsu⟩
  · exact ⟨u, hu, .single hedge⟩
  · exact ⟨s, hs, hsu.tail hedge⟩

section Cycle

variable (hok : e.Ok) (hs : Sound e.graph) (o : CycleOrder)

include hok hs

/-- **What a cycle does to a dirty node**: it is executed where its dependencies have the values
they end with, and it has the value it was left with by the drains. The store in between is the one
the executor had come to; only these two things are said of it. -/
theorem Ok.getById_of_dirty {v : NodeId} (hv : e.Dirty v) : ∃ store : ValueStore V,
    (Engine.runCycleImpl o false e).graph.valueStore.getById v = (e.nodeStore v store).getById v ∧
      (∀ u ∈ e.graph.depsOf v, store.getById u =
        (Engine.runCycleImpl o false e).graph.valueStore.getById u) ∧
      store.getById v = e.received.graph.valueStore.getById v := by
  have hreg := hok.regular hs.acyclic
  rw [(runCycleImpl_sequential o e).1, storeAfter, (sameFrame_received e).nodeStore]
  obtain ⟨a, b, -, hval, hreads, hown⟩ := Dataflow.exists_step_eq (framed_nodeStore e)
    (hreg.nodup_sortedOf o) (hreg.ordered_sortedOf o) e.received.graph.valueStore
    (hreg.mem_sortedOf.mpr hv)
  exact ⟨_, hval, hreads, hown⟩

/-- A node that is not dirty has what the drains left it with. -/
theorem Ok.getById_of_not_dirty {v : NodeId} (hv : ¬ e.Dirty v) :
    (Engine.runCycleImpl o false e).graph.valueStore.getById v =
      e.received.graph.valueStore.getById v := by
  have hreg := hok.regular hs.acyclic
  rw [(runCycleImpl_sequential o e).1, storeAfter, (sameFrame_received e).nodeStore]
  exact Dataflow.get_evalAll_of_notMem (framed_nodeStore e)
    (mt hreg.mem_sortedOf.mp hv)

/-- What an active node reads changes only if the node is dirty. -/
theorem Ok.reads_of_not_dirty {v : NodeId} (hva : v ∈ e.active) (hv : ¬ e.Dirty v) :
    ∀ u ∈ e.graph.depsOf v, (Engine.runCycleImpl o false e).graph.valueStore.getById u =
      e.graph.valueStore.getById u := by
  intro u hu
  have hnot : u ∉ e.updated ∧ ¬ e.Dirty u := by
    rw [← not_or]
    exact fun hor => hv (hok.dirty_of_reads hva hu hor)
  rw [hok.getById_of_not_dirty hs o hnot.2, getById_received e hnot.1]

end Cycle

/-- **A cycle keeps it**: dirty nodes are computed from what their dependencies end with, and for
the others neither the value nor what it is computed from has changed. The two cases are
`Ok.getById_of_dirty` and the two lemmas after it. -/
theorem Recomputed.runCycleImpl (h : e.Recomputed) (hok : e.Ok) (hs : Sound e.graph)
    (hout : e.FromOutside) (o : CycleOrder) : (runCycleImpl o false e).Recomputed := by
  intro v entry value hv hentry hk hvalue
  rw [(sameFrame_runCycleImpl o false e).active] at hv
  rw [(sameFrame_runCycleImpl o false e).entries] at hentry
  have hdeps : e.graph.depsOf v = entry.deps := Graph.depsOf_of_get hentry
  have hpure := (hs.pure v entry hentry).congr
  by_cases hdirty : e.Dirty v
  · obtain ⟨store, hval, hreads, -⟩ := hok.getById_of_dirty hs o hdirty
    rw [hpure _ store fun u hu => (hreads u (by rwa [hdeps])).symm] at hvalue
    rw [hval]
    simp only [nodeStore, hentry, hk, if_true, hvalue, ValueStore.getById_setById_self]
  · rw [hok.getById_of_not_dirty hs o hdirty,
      getById_received e fun hupd => hout.not_compute hupd ⟨entry, hentry, hk⟩]
    refine h v entry value hv hentry hk ?_
    rw [← hvalue]
    exact hpure _ _ fun u hu => (hok.reads_of_not_dirty hs o hv hdirty u (by rwa [hdeps])).symm

end Engine

/-! ## Every run -/

open Engine

variable {V : Type*}

/-- The actions of a client that removes nothing, does not use the thread pool, and sends to sources
only. -/
def Action.Grows (w : World V) : Action V → Prop
  | .send id _ => HasKind w.engine.graph id .source
  | .drop _ => False
  | .runCycleParallel _ => False
  | _ => True

/-- What such a run keeps. -/
structure World.Growing (w : World V) : Prop where
  ok : w.engine.Ok
  outside : w.engine.FromOutside
  pure : ∀ id entry, w.engine.graph.entries.get id = some entry →
    entry.nodeImpl.Pure entry.deps
  recomputed : w.engine.Recomputed

theorem World.Growing.init : (init : World V).Growing where
  ok := .new
  outside := ⟨fun u hu => absurd hu List.not_mem_nil, .new⟩
  pure id entry hentry := by
    have : (∅ : FinMap NodeId (NodeEntry V)).get id = some entry := hentry
    simp at this
  recomputed v _ _ hv := absurd hv (Finset.notMem_empty v)

theorem World.Growing.apply {w : World V} (h : w.Growing) {a : Action V} (hg : a.Grows w)
    (hbrings : a.Brings AnyNodeImpl.Pure) (hsup : a.Supplied w)
    (hac : Dag.Acyclic (Reads (w.apply a).engine.graph)) : (w.apply a).Growing := by
  have hok := World.ok_apply h.ok hsup (by cases a <;> first | rfl | exact hg.elim)
  have hpure := World.impl_apply h.pure hbrings
  suffices hs : (w.apply a).engine.FromOutside ∧ (w.apply a).engine.Recomputed from
    ⟨hok, hs.1, hpure, hs.2⟩
  cases a with
  | register desc =>
    simp only [World.apply, Engine.register, h.ok.drain_eq]
    exact ⟨h.outside.registerAll _, h.recomputed.registerAll h.ok _⟩
  | merge descs =>
    have heq := merge_eq h.ok.drained (SubgraphBuilder.ofList descs)
    have hok' := h.ok.registerAll (SubgraphBuilder.ofList descs).descriptors
    obtain ⟨hgrown, -, hrest⟩ :=
      grown_activateSinks (SubgraphBuilder.ofList descs).nodeIds hok'.drained
    simp only [World.apply, heq] at hpure hac ⊢
    have hs : Sound (w.engine.registerAll (SubgraphBuilder.ofList descs).descriptors).graph :=
      Sound.congr ⟨hpure, hac⟩ hrest.entries.symm
    exact ⟨(h.outside.registerAll _).activateSinks hok'.drained _,
      (h.recomputed.registerAll h.ok _).grown hok' hs hgrown⟩
  | drop i => exact hg.elim
  | activateSink id =>
    obtain ⟨hgrown, -⟩ := grown_activate w.engine id
    simp only [World.apply, Engine.activateSink, h.ok.drain_eq] at hpure hac ⊢
    have hs : Sound w.engine.graph := Sound.congr ⟨hpure, hac⟩ hgrown.entries.symm
    exact ⟨h.outside.activate id, h.recomputed.grown h.ok hs hgrown⟩
  | setErrorStrategy id strategy =>
    exact ⟨⟨h.outside.sources, h.outside.results⟩, h.recomputed⟩
  | concurrencyGroup n =>
    exact ⟨⟨h.outside.sources, h.outside.results.createGroup n⟩, h.recomputed⟩
  | send id value =>
    have hentries := Graph.entries_sendSource w.engine.graph id value
    have hstore := Graph.valueStore_sendSource w.engine.graph id value
    refine ⟨h.outside.send hg value, fun v entry val hv hentry hk hval => ?_⟩
    simp only [World.apply, Engine.send, hstore] at hval ⊢
    exact h.recomputed v entry val hv (hentries ▸ hentry) hk hval
  | complete task =>
    exact ⟨⟨h.outside.sources, h.outside.results.complete task⟩, h.recomputed⟩
  | runCycle o =>
    -- A cycle registers nothing, so the graph it leaves is as sound as the one it ran on.
    have hframe := sameFrame_runCycleImpl o false w.engine
    simp only [World.apply, Engine.runCycle, h.ok.drain_eq] at hpure hac ⊢
    have hs : Sound w.engine.graph := Sound.congr ⟨hpure, hac⟩ hframe.entries.symm
    exact ⟨h.outside.runCycleImpl o, h.recomputed.runCycleImpl h.ok hs h.outside o⟩
  | runCycleParallel o => exact hg.elim

/-- **Incremental propagation is recomputation.** In a run without removals, in every state it
passes through, the store holds for every active compute node what its `compute` gives on that
store, if it gives anything.

The hypothesis is about each step in the state it is taken in: it removes nothing and sends to
sources only, what it brings is pure and has its dependencies registered, and the registry stays
acyclic. The proof carries `World.Growing` from step to step. Of what happens within a cycle, before
it is through, nothing is said. -/
theorem incremental_eq_recompute (as : List (Action V))
    (h : Runs.AllSteps World.apply (fun w a => a.Grows w ∧ a.Brings AnyNodeImpl.Pure ∧
      a.Supplied w ∧ Dag.Acyclic (Reads (w.apply a).engine.graph)) World.init as) :
    Runs.Always World.apply (fun w => w.engine.Recomputed) World.init as :=
  Runs.always_of_invariant (I := World.Growing)
    (fun _ _ hw ha => hw.apply ha.1 ha.2.1 ha.2.2.1 ha.2.2.2) (fun _ hw => hw.recomputed) .init h

open Sample in
theorem incremental_eq_recompute_sum :
    let as : List (Action ℕ) := [.merge [node .source 0 [], node .source 1 [],
      node .compute 2 [0, 1], node .sink 3 [2]], .send (nodeId 0) 5, .send (nodeId 1) 7,
      .runCycle default]
    Runs.Always World.apply (fun w => w.engine.Recomputed) World.init as ∧
      (World.run as).engine.graph.valueStore.getById (nodeId 2) = some 12 := by
  refine ⟨incremental_eq_recompute _ ⟨⟨trivial, ?_, ?_, ?_⟩, ⟨?_, trivial, trivial, ?_⟩,
    ⟨?_, trivial, trivial, ?_⟩, ⟨trivial, trivial, trivial, ?_⟩, trivial⟩, by decide +kernel⟩
  · intro desc hdesc
    simp only [List.mem_cons, List.not_mem_nil, or_false] at hdesc
    rcases hdesc with rfl | rfl | rfl | rfl <;> exact pure_node _ _ _
  · exact fun id _ _ => supplied_of_closed (by decide +kernel) id
  · exact acyclic_of_rank NodeId.typeId (by decide +kernel)
  · show HasKind _ _ _
    decide +kernel
  · exact acyclic_of_rank NodeId.typeId (by decide +kernel)
  · show HasKind _ _ _
    decide +kernel
  · exact acyclic_of_rank NodeId.typeId (by decide +kernel)
  · exact acyclic_of_rank NodeId.typeId (by decide +kernel)

end ReactiveGraph
