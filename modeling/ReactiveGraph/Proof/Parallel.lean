import ReactiveGraph.Proof.Scheduler
import ReactiveGraph.Proof.World

/-!
# Parallel cycles

`runCycleParallel` drains, sorts and triggers as `runCycle` does, but leaves the nodes that are not
async to the wave scheduler. Two questions: does it run the same nodes, and does it compute the
same.

The first has an exact answer. Ready counts are taken against the whole dirty set and only the nodes
handed to the scheduler are ever counted down, so a dirty async node holds back whatever is
downstream of it: the wave loop finds nothing ready and stops (`parallel_covers_iff`). Where there
is no such node, and none whose failure removes its value — the scheduler has no error strategies —
the second answer is yes, for any order of anything (`parallel_eq_sequential`).

**Nothing is lost for good** by a node that is held back: when the async node's result comes, a
later cycle finds it updated and the node dirty. What the first result says is that it is not
evaluated by the cycle that has just taken its source's value, as it would be by a sequential one,
and keeps what it had.

**How the second is proved.** Both executors evaluate a list of nodes in dependency order, the
sorted list in one case and the list of the waves in the other, with the same members. What a node
is given is a function of what it reads, so any two such lists leave the same store. A sink emits
what its dependencies end with under both, so the emissions agree because the stores do.

An evaluation is counted by the calls on record, and the attempts of a retry are one; how many there
are differs between the executors, and is in `ErrorStrategies.lean`.
-/

namespace ReactiveGraph

variable {V : Type*}

namespace Engine

variable {e : Engine V}

/-! ## Evaluations -/

/-- How often a node has been evaluated; the attempts of a retry are one evaluation. -/
def evaluations (e : Engine V) (id : NodeId) : ℕ := (e.effects.map Effect.nodeId).count id

/-- The node is a compute node or a sink. -/
def IsComputeOrSink (e : Engine V) (id : NodeId) : Prop :=
  ∃ entry, e.graph.entries.get id = some entry ∧ (entry.kind = .compute ∨ entry.kind = .sink)

theorem isSync_eq_false {id : NodeId} : e.isSync id = false ↔ HasKind e.graph id .asyncCompute := by
  unfold isSync HasKind
  cases e.graph.entries.get id with
  | none => simp
  | some entry => simp

theorem IsComputeOrSink.isSync {id : NodeId} (h : e.IsComputeOrSink id) : e.isSync id = true := by
  obtain ⟨entry, hentry, hk⟩ := h
  simp only [Engine.isSync, hentry]
  rcases hk with hk | hk <;> simp [hk]

theorem IsComputeOrSink.called {id : NodeId} (h : e.IsComputeOrSink id) :
    Scheduler.called e.graph.entries id = true := by
  obtain ⟨entry, hentry, hk⟩ := h
  simpa [Scheduler.called, hentry] using hk

/-- A node is called at most once each time it is executed, and compute nodes and sinks always:
there is one record for each execution, whatever the result. -/
theorem nodeId_nodeEffects (e : Engine V) (id : NodeId) (store : ValueStore V) :
    (e.nodeEffects id store).map Effect.nodeId =
      match e.graph.entries.get id with
      | some entry => if entry.kind = .source then [] else [id]
      | none => [] := by
  unfold nodeEffects
  cases e.graph.entries.get id with
  | none => rfl
  | some entry => cases hk : entry.kind <;> simp [hk, Effect.nodeId]

/-- The node has a callback to call when it is executed: it is registered, and no source. -/
def HasCallback (e : Engine V) (id : NodeId) : Prop :=
  ∃ entry, e.graph.entries.get id = some entry ∧ entry.kind ≠ .source

theorem IsComputeOrSink.hasCallback {id : NodeId} (h : e.IsComputeOrSink id) : e.HasCallback id := by
  obtain ⟨entry, hentry, hk⟩ := h
  exact ⟨entry, hentry, by rcases hk with hk | hk <;> simp [hk]⟩

theorem count_nodeEffects (e : Engine V) (id v : NodeId) (store : ValueStore V) :
    (e.HasCallback v → ((e.nodeEffects id store).map Effect.nodeId).count v = [id].count v) ∧
      (¬ e.HasCallback v → ((e.nodeEffects id store).map Effect.nodeId).count v = 0) := by
  rw [nodeId_nodeEffects]
  cases hentry : e.graph.entries.get id with
  | none =>
    refine ⟨fun hv => ?_, fun _ => rfl⟩
    have hne : id ≠ v := by
      rintro rfl
      obtain ⟨entry, hv, -⟩ := hv
      exact absurd (hentry.symm.trans hv) (by simp)
    simp [hne]
  | some entry =>
    by_cases hk : entry.kind = .source
    · refine ⟨fun hv => ?_, fun _ => by simp [hk]⟩
      have hne : id ≠ v := by
        rintro rfl
        obtain ⟨entry', hv, hns⟩ := hv
        obtain rfl := Option.some.inj (hentry.symm.trans hv)
        exact hns hk
      simp [hk, hne]
    · refine ⟨fun _ => by simp [hk], fun hv => ?_⟩
      have hne : id ≠ v := by
        rintro rfl
        exact hv ⟨entry, hentry, hk⟩
      simp [hk, hne]

/-- A node with a callback is called each time it is executed, and no other is. So the count of
calls is the count of occurrences in the list that is executed. -/
theorem count_effectsAlong (e : Engine V) (v : NodeId) (l : List NodeId) (store : ValueStore V) :
    (e.HasCallback v → ((e.effectsAlong l store).map Effect.nodeId).count v = l.count v) ∧
      (¬ e.HasCallback v → ((e.effectsAlong l store).map Effect.nodeId).count v = 0) := by
  induction l generalizing store with
  | nil => exact ⟨fun _ => rfl, fun _ => rfl⟩
  | cons x l ih =>
    obtain ⟨hyes, hno⟩ := e.count_nodeEffects x v store
    obtain ⟨ihyes, ihno⟩ := ih (e.nodeStore x store)
    rw [effectsAlong, List.map_append, List.count_append]
    constructor
    · intro hv
      rw [hyes hv, ihyes hv, ← List.count_append, List.singleton_append]
    · intro hv
      rw [hno hv, ihno hv]

/-- **A sequential cycle evaluates every dirty compute node and sink once.** -/
theorem Regular.evaluations_runCycleImpl (h : Regular e) (o : CycleOrder) {v : NodeId}
    (hv : e.IsComputeOrSink v) (hdirty : e.Dirty v) :
    (runCycleImpl o false e).evaluations v = e.evaluations v + 1 := by
  have hv' : e.received.IsComputeOrSink v := by
    unfold IsComputeOrSink
    rw [(sameFrame_received e).entries]
    exact hv
  rw [evaluations, (runCycleImpl_sequential o e).2, List.map_append, List.count_append,
    (count_effectsAlong _ v _ _).1 hv'.hasCallback, List.count_eq_one_of_mem (h.nodup_sortedOf o)
      (h.mem_sortedOf.mpr hdirty)]
  rfl

/-- **What a parallel cycle evaluates**: a dirty compute node or sink is evaluated once when no
dirty async node is upstream of it, and not at all otherwise. The scheduler's own account of what it
runs, with the dirty async nodes as those that are not to run. -/
theorem Regular.evaluations_parallel (h : Regular e) (o : CycleOrder) {v : NodeId}
    (hv : e.IsComputeOrSink v) (hdirty : e.Dirty v) :
    ((∀ a, HasKind e.graph a .asyncCompute → e.Dirty a → ¬ e.topology.Downstream a v) →
      (runCycleImpl o true e).evaluations v = e.evaluations v + 1) ∧
    ((∃ a, HasKind e.graph a .asyncCompute ∧ e.Dirty a ∧ e.topology.Downstream a v) →
      (runCycleImpl o true e).evaluations v = e.evaluations v) := by
  have hnodes : ∀ v ∈ (e.sortedOf o).filter e.isSync,
      v ∈ e.topology.dirtySet o.sources e.updated := fun v hv =>
    mem_dirty.mpr (h.mem_sortedOf.mp (List.mem_of_mem_filter hv))
  obtain ⟨tail, htail, -, heffects⟩ := runCycleImpl_parallel o e
  obtain ⟨done, hran, hdone⟩ := Scheduler.nodeId_executeParallel h.edges.1 hnodes e.graph.entries
    e.received.graph.valueStore o.waves
  -- the triggers are calls of async nodes
  have htail0 : (tail.map Effect.nodeId).count v = 0 := by
    refine List.count_eq_zero.mpr fun hmem => ?_
    obtain ⟨effect, heffect, rfl⟩ := List.mem_map.mp hmem
    obtain ⟨id, reads, rfl, -, hasync⟩ := htail effect heffect
    exact absurd hv.isSync (by simpa [Effect.nodeId] using hasync)
  have hcount : (runCycleImpl o true e).evaluations v = e.evaluations v + done.count v := by
    rw [evaluations, heffects, List.map_append, List.map_append, List.count_append,
      List.count_append, hdone, htail0, List.count_filter hv.called]
    rfl
  have hmem := hran.mem_iff (v := v) h.edges.1 (h.exactOn_dirtySet o) h.acyclic hnodes
    fun u hu w hw => by
      obtain ⟨s, hs, hsu⟩ := mem_dirty.mp hu
      exact mem_dirty.mpr ⟨s, hs, hsu.tail hw⟩
  have hnot : ∀ a ∈ e.topology.dirtySet o.sources e.updated,
      a ∉ (e.sortedOf o).filter e.isSync ↔ HasKind e.graph a .asyncCompute := by
    intro a ha
    rw [List.mem_filter, not_and, ← isSync_eq_false, Bool.not_eq_true]
    exact ⟨fun hsync => hsync (h.mem_sortedOf.mpr (mem_dirty.mp ha)), fun hsync _ => hsync⟩
  constructor
  · intro hfree
    rw [hcount, List.count_eq_one_of_mem hran.nodup (hmem.mpr ⟨?_, fun a ha hna => ?_⟩)]
    · exact List.mem_filter.mpr ⟨h.mem_sortedOf.mpr hdirty, hv.isSync⟩
    · exact hfree a ((hnot a ha).mp hna) (mem_dirty.mp ha)
  · rintro ⟨a, hasync, hda, hav⟩
    rw [hcount, List.count_eq_zero.mpr fun hd => ?_, add_zero]
    have ha := (mem_dirty (o := o)).mpr hda
    exact (hmem.mp hd).2 a ha ((hnot a ha).mpr hasync) hav

/-- **The parallel executor evaluates every dirty compute node and every dirty sink exactly once, as
the sequential one does, if and only if none of them is downstream of a dirty async node.**

Dirty is meant in the engine that has made its removals, since that is what both cycles work on. The
condition is one on the state before the cycle: which nodes are updated, and how the topology links
them. Nothing is assumed of what the nodes compute. -/
theorem parallel_covers_iff (e : Engine V) (hwired : Wired e) (hexact : Exact e.topology)
    (hacyclic : Dag.Acyclic fun u v => u ∈ e.topology.depsOf v) (o : CycleOrder) :
    (∀ v, e.drainPendingRemovals.Dirty v → e.drainPendingRemovals.IsComputeOrSink v →
      (e.runCycle o).evaluations v = e.evaluations v + 1) ∧
    ((∀ v, e.drainPendingRemovals.Dirty v → e.drainPendingRemovals.IsComputeOrSink v →
        (e.runCycleParallel o).evaluations v = e.evaluations v + 1) ↔
      ∀ a v, e.drainPendingRemovals.Dirty a → HasKind e.drainPendingRemovals.graph a .asyncCompute →
        e.drainPendingRemovals.IsComputeOrSink v →
          ¬ e.drainPendingRemovals.topology.Downstream a v) := by
  have h := Regular.drainPendingRemovals hwired hexact hacyclic
  have hev : ∀ v, e.drainPendingRemovals.evaluations v = e.evaluations v := fun v => by
    rw [evaluations, (shrinks_drainPendingRemovals e).effects, evaluations]
  refine ⟨fun v hd hv => ?_, fun hall a v hda hasync hv hav => ?_, fun hfree v hd hv => ?_⟩
  · rw [← hev]
    exact h.evaluations_runCycleImpl o hv hd
  · have hd : e.drainPendingRemovals.Dirty v := by
      obtain ⟨s, hs, hsa⟩ := hda
      exact ⟨s, hs, hsa.trans hav⟩
    have hzero := (h.evaluations_parallel o hv hd).2 ⟨a, hasync, hda, hav⟩
    have hone := hall v hd hv
    rw [← hev] at hone
    have : (e.runCycleParallel o).evaluations v = e.drainPendingRemovals.evaluations v := hzero
    omega
  · rw [← hev]
    exact (h.evaluations_parallel o hv hd).1 fun a ha hda => hfree a v hda ha hv

/-- Nodes built into the graph one after the other, the last one activated, and a value sent into
the first. -/
def built (descs : List (NodeDescriptor ℕ)) (sink : ℕ) : List (Action ℕ) :=
  descs.map .register ++ [.activateSink (Sample.nodeId sink), .send (Sample.nodeId 0) 5]

open Sample in
/-- A source, two compute nodes that both read it, one of them the other as well, and a sink. -/
def diamond : Engine ℕ := (World.run (built [node .source 0 [], node .compute 1 [0],
  node .compute 2 [0, 1], node .sink 3 [1, 2]] 3)).engine

open Sample in
/-- A source, an async node that reads it, and a compute node and a sink after that. -/
def stalled : Engine ℕ := (World.run (built [node .source 0 [], node .asyncCompute 1 [0],
  node .compute 2 [1], node .sink 3 [2]] 3)).engine

theorem ok_built (descs : List (NodeDescriptor ℕ)) (sink : ℕ)
    (hclosed : ∀ v ∈ (World.run (descs.map Action.register)).engine.graph.entries.keys,
      ∀ u ∈ (World.run (descs.map Action.register)).engine.graph.depsOf v,
        u ∈ (World.run (descs.map Action.register)).engine.graph.entries.keys) :
    (World.run (built descs sink)).engine.Ok := by
  refine World.ok_run (Runs.AllSteps.append.mpr ⟨?_, ⟨supplied_of_closed hclosed _, rfl⟩,
    ⟨trivial, rfl⟩, trivial⟩)
  generalize World.init = w
  clear hclosed
  induction descs generalizing w with
  | nil => exact trivial
  | cons desc descs ih => exact ⟨⟨trivial, rfl⟩, ih _⟩

theorem ok_diamond : diamond.Ok := ok_built _ 3 (by decide +kernel)

theorem ok_stalled : stalled.Ok := ok_built _ 3 (by decide +kernel)

theorem acyclic_diamond : Dag.Acyclic fun u v => u ∈ diamond.topology.depsOf v :=
  (ok_diamond.regular (acyclic_of_rank NodeId.typeId (by decide +kernel))).acyclic

theorem acyclic_stalled : Dag.Acyclic fun u v => u ∈ stalled.topology.depsOf v :=
  (ok_stalled.regular (acyclic_of_rank NodeId.typeId (by decide +kernel))).acyclic

theorem dirty_of_mem (o : CycleOrder) {v : NodeId}
    (h : v ∈ e.topology.dirtySet o.sources e.updated) : e.Dirty v := mem_dirty.mp h

open Sample in
/-- A source, a compute node and a sink after it, and an async node that reads the source and that
nothing reads. -/
def branched : Engine ℕ := (World.run [.register (node .source 0 []),
  .register (node .compute 1 [0]), .register (node .sink 2 [1]),
  .register (node .asyncCompute 3 [0]), .activateSink (nodeId 2), .activateSink (nodeId 3),
  .send (nodeId 0) 5]).engine

theorem ok_branched : branched.Ok :=
  World.ok_run ⟨⟨trivial, rfl⟩, ⟨trivial, rfl⟩, ⟨trivial, rfl⟩, ⟨trivial, rfl⟩,
    ⟨supplied_of_closed (by decide +kernel) _, rfl⟩,
    ⟨supplied_of_closed (by decide +kernel) _, rfl⟩, ⟨trivial, rfl⟩, trivial⟩

theorem acyclic_branched : Dag.Acyclic fun u v => u ∈ branched.topology.depsOf v :=
  (ok_branched.regular (acyclic_of_rank NodeId.typeId (by decide +kernel))).acyclic

open Sample in
/-- The dirty async node holds back neither the compute node nor the sink. -/
theorem parallel_covers_iff_branched :
    nodeId 3 ∈ branched.topology.dirtySet default branched.updated ∧
      (branched.runCycleParallel default).evaluations (nodeId 1) =
        branched.evaluations (nodeId 1) + 1 ∧
      (branched.runCycleParallel default).evaluations (nodeId 2) =
        branched.evaluations (nodeId 2) + 1 := by
  have hleaf : ∀ a ∈ branched.drainPendingRemovals.graph.entries.keys,
      HasKind branched.drainPendingRemovals.graph a .asyncCompute →
        branched.drainPendingRemovals.topology.dependentsOf a = [] := by decide +kernel
  have hcovers := (parallel_covers_iff branched (World.wired_run _) ok_branched.exact
    acyclic_branched default).2.mpr fun a v _ ha _ hav => by
      obtain ⟨entry, hentry, -⟩ := id ha
      obtain ⟨w, haw, -⟩ := Relation.TransGen.head'_iff.mp hav
      rw [Worklist.Edge, hleaf a (FinMap.mem_keys_of_get hentry) ha] at haw
      exact List.not_mem_nil haw
  exact ⟨by decide +kernel,
    hcovers (nodeId 1) (dirty_of_mem default (by decide +kernel)) ⟨_, rfl, Or.inl rfl⟩,
    hcovers (nodeId 2) (dirty_of_mem default (by decide +kernel)) ⟨_, rfl, Or.inr rfl⟩⟩

open Sample in
/-- A dirty compute node behind a dirty async node is not evaluated by the cycle that updates the
async node's source, nor is the sink behind it. The state is one a program reaches, by registering
four nodes and sending one value. -/
theorem async_dependent_skipped :
    (Wired stalled ∧ Exact stalled.topology ∧
      Dag.Acyclic fun u v => u ∈ stalled.topology.depsOf v) ∧
    ¬ ∀ v, stalled.drainPendingRemovals.Dirty v →
      stalled.drainPendingRemovals.IsComputeOrSink v →
        (stalled.runCycleParallel default).evaluations v = stalled.evaluations v + 1 := by
  refine ⟨⟨World.wired_run _, ok_stalled.exact, acyclic_stalled⟩, fun hall => ?_⟩
  have hone := hall (nodeId 2) (dirty_of_mem default (by decide +kernel)) ⟨_, rfl, Or.inl rfl⟩
  exact absurd hone (by decide +kernel)

/-! ## Values -/

/-- The scheduler runs a node as the sequential executor does under any strategy but
`propagateError`. A retry ends with the result of one call, and a stale value is what the scheduler
leaves, too. -/
theorem singleStore_eq {id : NodeId} (h : e.strategyOf id ≠ .propagateError)
    (store : ValueStore V) :
    Scheduler.singleStore e.graph.entries id store = e.nodeStore id store := by
  unfold Scheduler.singleStore Scheduler.executeSingle nodeStore
  cases e.graph.entries.get id with
  | none => rfl
  | some entry =>
    cases hk : entry.kind with
    | compute =>
      cases hvalue : entry.nodeImpl.compute entry.deps store <;> simp [hk, hvalue, if_neg h]
    | source => simp [hk]
    | sink => simp [hk]
    | asyncCompute => simp [hk]

/-- It leaves a node that has failed with what it has. -/
theorem given_singleStore (hpure : ∀ id entry, e.graph.entries.get id = some entry →
    entry.nodeImpl.ReadsDeps entry.deps) :
    Dataflow.Given ValueStore.getById e.graph.depsOf (Scheduler.singleStore e.graph.entries)
      (e.nodeValue fun _ own => own) where
  frame id store v hv := by
    unfold Scheduler.singleStore
    split
    · exact ValueStore.getById_setById_of_ne _ _ hv
    · rfl
  step_eq id store := by
    rw [Scheduler.getById_singleStore_self]
    unfold Scheduler.executeSingle nodeValue
    cases e.graph.entries.get id with
    | none => rfl
    | some entry => cases hk : entry.kind <;> simp [hk]
  congr _ _ _ own h := nodeValue_congr hpure _ h own

theorem emissions_nodeEffects (e : Engine V) (id v : NodeId) (store : ValueStore V) :
    emissions v (e.nodeEffects id store) =
      if id = v then Scheduler.emissionOf e.graph.entries store v else [] := by
  unfold nodeEffects emissions Scheduler.emissionOf
  by_cases hv : id = v
  · subst hv
    cases e.graph.entries.get id with
    | none => simp
    | some entry => cases hk : entry.kind <;> simp [hk, Effect.emission]
  · cases e.graph.entries.get id with
    | none => simp [hv]
    | some entry => cases hk : entry.kind <;> simp [hk, hv, Effect.emission]

theorem effectsAlong_append (e : Engine V) (a b : List NodeId) (store : ValueStore V) :
    e.effectsAlong (a ++ b) store =
      e.effectsAlong a store ++ e.effectsAlong b (e.storeAfter a store) := by
  induction a generalizing store with
  | nil => rfl
  | cons x a ih =>
    rw [List.cons_append, effectsAlong, ih, effectsAlong, List.append_assoc]
    rfl

theorem emissions_effectsAlong_of_notMem {v : NodeId} {l : List NodeId} (hv : v ∉ l)
    (store : ValueStore V) : emissions v (e.effectsAlong l store) = [] := by
  induction l generalizing store with
  | nil => rfl
  | cons x l ih =>
    obtain ⟨hx, hl⟩ := not_or.mp (mt List.mem_cons.mpr hv)
    rw [effectsAlong, Scheduler.emissions_append, ih hl, emissions_nodeEffects,
      if_neg (Ne.symm hx)]
    rfl

/-- **In a sequential cycle a sink emits once, with the values its dependencies end with.** The same
is said of the waves by `Scheduler.values_executeParallel`, and the two statements have one form so
that they can be compared. -/
theorem emissions_effectsAlong
    (hlocal : Dataflow.Local ValueStore.getById e.graph.depsOf e.nodeStore) {l : List NodeId}
    (hnd : l.Nodup) (ho : Dag.Ordered e.graph.depsOf (· ∈ l) l) (store : ValueStore V)
    (v : NodeId) : emissions v (e.effectsAlong l store) =
      if v ∈ l then Scheduler.emissionOf e.graph.entries (e.storeAfter l store) v else [] := by
  by_cases hv : v ∈ l
  · obtain ⟨a, b, rfl⟩ := List.append_of_mem hv
    have hva : v ∉ a := fun ha => (List.nodup_append.mp hnd).2.2 v ha v List.mem_cons_self rfl
    have hvb : v ∉ b := (List.nodup_cons.mp hnd.of_append_right).1
    rw [if_pos hv, effectsAlong_append, Scheduler.emissions_append,
      emissions_effectsAlong_of_notMem hva, List.nil_append, effectsAlong,
      Scheduler.emissions_append, emissions_effectsAlong_of_notMem hvb, List.append_nil,
      emissions_nodeEffects, if_pos rfl]
    exact Scheduler.emissionOf_congr fun u hu => Dataflow.reads_final hlocal.frame hnd ho store hu
  · rw [if_neg hv, emissions_effectsAlong_of_notMem hv]

/-- The batch holds nothing that the two executors treat differently: no dirty async node, and no
dirty node whose failure is to remove its value. -/
def Plain (e : Engine V) : Prop :=
  ∀ v, e.Dirty v → ¬ HasKind e.graph v .asyncCompute ∧ e.strategyOf v ≠ .propagateError

/-- **Where no dirty node is async a parallel cycle runs every dirty node**, as if one after the
other in an order that suits a sequential cycle as well. Which order it is depends on the walks of
the waves, and nothing that follows does. -/
theorem Regular.runs_parallel (h : Regular e)
    (hpure : ∀ id entry, e.graph.entries.get id = some entry →
      entry.nodeImpl.ReadsDeps entry.deps)
    (hsync : ∀ v, e.Dirty v → ¬ HasKind e.graph v .asyncCompute) (o : CycleOrder) :
    ∃ done : List NodeId, done.Nodup ∧ (∀ v, v ∈ done ↔ e.Dirty v) ∧
      Dag.Ordered e.graph.depsOf (· ∈ done) done ∧
      (runCycleImpl o true e).graph.valueStore = Dataflow.evalAll
        (Scheduler.singleStore e.graph.entries) done e.received.graph.valueStore ∧
      ∀ v, emissions v (runCycleImpl o true e).effects = emissions v e.effects ++
        if v ∈ done then Scheduler.emissionOf e.graph.entries
          (runCycleImpl o true e).graph.valueStore v else [] := by
  -- no dirty node is async, so the scheduler gets all of them
  have hnodes : ∀ v, v ∈ (e.sortedOf o).filter e.isSync ↔ e.Dirty v := by
    intro v
    rw [List.mem_filter, h.mem_sortedOf, and_iff_left_iff_imp]
    intro hv
    by_contra hnot
    exact hsync v hv (isSync_eq_false.mp (by simpa using hnot))
  have hdirty : ∀ v ∈ (e.sortedOf o).filter e.isSync,
      v ∈ e.topology.dirtySet o.sources e.updated := fun v hv =>
    mem_dirty.mpr ((hnodes v).mp hv)
  obtain ⟨tail, htail, hstore, heffects⟩ := runCycleImpl_parallel o e
  obtain ⟨done, hran, hvalues, hemitted⟩ := Scheduler.values_executeParallel
    (fun v hv => h.depsOf_of_dirty ((hnodes v).mp hv)) hdirty h.edges.1
    (given_singleStore hpure).local e.received.graph.valueStore o.waves
  refine ⟨done, hran.nodup, fun v => ?_, ?_, hstore.trans hvalues, fun v => ?_⟩
  · rw [hran.mem_iff h.edges.1 (h.exactOn_dirtySet o) h.acyclic hdirty fun u hu w hw => ?_, hnodes,
      and_iff_left]
    · exact fun a ha hna => absurd ((hnodes a).mpr (mem_dirty.mp ha)) hna
    · obtain ⟨s, hs, hsu⟩ := mem_dirty.mp hu
      exact mem_dirty.mpr ⟨s, hs, hsu.tail hw⟩
  · exact hran.ordered.mono (fun v hv u hu => by
      rwa [← h.depsOf_of_dirty ((hnodes v).mp (hran.subset v hv))])
      fun u hu => hdirty u (hran.subset u hu)
  -- the triggers come after the emissions, and there are none
  · have htail0 : emissions v tail = [] := by
      refine List.filterMap_eq_nil_iff.mpr fun effect heffect => ?_
      obtain ⟨id, reads, rfl, -⟩ := htail effect heffect
      rfl
    rw [heffects, Scheduler.emissions_append, Scheduler.emissions_append, htail0, List.append_nil,
      hemitted, hstore, hvalues]

/-- What the two cycles leave, for an engine with nothing to remove. -/
theorem Regular.parallel_agrees (h : Regular e)
    (hpure : ∀ id entry, e.graph.entries.get id = some entry →
      entry.nodeImpl.ReadsDeps entry.deps)
    (hplain : e.Plain) (o o' : CycleOrder) :
    (runCycleImpl o true e).graph.valueStore = (runCycleImpl o' false e).graph.valueStore ∧
      ∀ v, emissions v (runCycleImpl o true e).effects =
        emissions v (runCycleImpl o' false e).effects := by
  have hframe := sameFrame_received e
  have hlocal := local_nodeStore hpure
  obtain ⟨done, hnodup, hdone, hord, hvalues, hemitted⟩ :=
    h.runs_parallel hpure (fun v hv => (hplain v hv).1) o
  obtain ⟨hstore', heffects'⟩ := runCycleImpl_sequential o' e
  have hmem : ∀ v, v ∈ done ↔ v ∈ e.sortedOf o' := fun v => by rw [hdone, h.mem_sortedOf]
  -- both orders suit the dependencies, so they leave one store
  have hsame : Dataflow.evalAll (Scheduler.singleStore e.graph.entries) done
      e.received.graph.valueStore =
        e.received.storeAfter (e.sortedOf o') e.received.graph.valueStore := by
    rw [storeAfter, hframe.nodeStore, Dataflow.evalAll_congr_step fun v hv store =>
      singleStore_eq (hplain v ((hdone v).mp hv)).2 store]
    exact ValueStore.ext_getById fun v => Dataflow.evalAll_congr hlocal hnodup
      (h.nodup_sortedOf o') hmem hord (h.ordered_sortedOf o') _ v
  refine ⟨by rw [hstore', hvalues, hsame], fun v => ?_⟩
  rw [hemitted, heffects', Scheduler.emissions_append, hvalues, hsame,
    emissions_effectsAlong (by rw [hframe.nodeStore, depsOf_congr hframe.entries]; exact hlocal)
      (h.nodup_sortedOf o') (by
        rw [depsOf_congr hframe.entries]
        exact h.ordered_sortedOf o'),
    hframe.entries]
  simp only [hmem]

/-- **Parallel and sequential cycles agree.** They leave the same value store, and every sink emits
equally often, with the same values at its dependencies, whatever the orders the two walk hash sets
in.

The order of emissions of different sinks is not compared, since the threads of a wave have none.
That `compute` looks at nothing but its dependencies is needed: one that looks elsewhere could tell
how far the rest of the wave has come. -/
theorem parallel_eq_sequential (e : Engine V) (hwired : Wired e) (hexact : Exact e.topology)
    (hacyclic : Dag.Acyclic fun u v => u ∈ e.topology.depsOf v)
    (hpure : ∀ id entry, e.graph.entries.get id = some entry →
      entry.nodeImpl.ReadsDeps entry.deps)
    (hplain : e.drainPendingRemovals.Plain) (o o' : CycleOrder) :
    (e.runCycleParallel o).graph.valueStore = (e.runCycle o').graph.valueStore ∧
      ∀ v, emissions v (e.runCycleParallel o).effects = emissions v (e.runCycle o').effects :=
  (Regular.drainPendingRemovals hwired hexact hacyclic).parallel_agrees
    (drain_impl (P := AnyNodeImpl.ReadsDeps) hpure) hplain o o'

open Sample in
theorem parallel_eq_sequential_diamond :
    (diamond.runCycleParallel default).graph.valueStore =
        (diamond.runCycle default).graph.valueStore ∧
      emissions (nodeId 3) (diamond.runCycleParallel default).effects =
        [[some 5, some 10]] := by
  have hpure : ∀ id entry, diamond.graph.entries.get id = some entry →
      entry.nodeImpl.ReadsDeps entry.deps := World.impl_run (P := AnyNodeImpl.ReadsDeps) (by
    intro a ha
    simp only [built, List.map_cons, List.map_nil, List.cons_append, List.nil_append,
      List.mem_cons, List.not_mem_nil, or_false] at ha
    rcases ha with rfl | rfl | rfl | rfl | rfl | rfl <;>
      first | exact (pure_node _ _ _).congr | exact trivial)
  have hall : ∀ v ∈ diamond.drainPendingRemovals.topology.dirtySet default
      diamond.drainPendingRemovals.updated,
      ¬ HasKind diamond.drainPendingRemovals.graph v .asyncCompute ∧
        diamond.drainPendingRemovals.strategyOf v ≠ .propagateError := by decide +kernel
  obtain ⟨hstore, hemit⟩ := parallel_eq_sequential diamond (World.wired_run _) ok_diamond.exact
    acyclic_diamond hpure (fun v hv => hall v (Topology.mem_dirtySet.mpr hv)) default default
  exact ⟨hstore, (hemit (nodeId 3)).trans (by decide +kernel)⟩

end Engine

end ReactiveGraph
