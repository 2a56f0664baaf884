import ReactiveGraph.Model.Introspection
import ReactiveGraph.Proof.GlitchFree
import ReactiveGraph.Proof.Representation

/-!
# What an engine tells about itself

A snapshot is taken from the registry and the metrics from counters, and neither says where it comes
from. `GraphSnapshot.Of` is what a snapshot says about the engine it was taken of: it has every
active node once, as the registry and the topology have it, and every edge as often as the topology
lists it among the dependencies. Since the dependents never list an edge more often
(`Represented.edges`), the snapshot shows every way a change can take through the engine.

**An edge may be shown that no change takes.** A removal takes an id out of the dependents of what
it read, and not out of the dependencies of those that read it; the two lists agree as long as
nothing was removed from under another (`Exact`). The statement about what a cycle finds dirty
therefore has two halves, and only one of them is for every state.

**A snapshot's order means nothing**: the nodes come as a hash map's walk has them. All that is said
here is about membership and multiplicity.

The counters count cycles that found something to do. `cyclesAlong` counts these along a run, from
what the engine held before each call, and `metrics_run` says that the counter agrees and that the
report is that of the last of them. Durations are outside the model: a cycle reports which nodes it
timed, and not how long they took.
-/

namespace ReactiveGraph

open Engine

variable {V : Type*}

/-- The snapshot shows the engine: its active nodes, each once and as it is registered, and its
edges with their multiplicity. -/
structure GraphSnapshot.Of (s : GraphSnapshot) (e : Engine V) : Prop where
  nodup : (s.nodes.map NodeInfo.id).Nodup
  mem : ∀ id, id ∈ s.nodes.map NodeInfo.id ↔ id ∈ e.active
  /-- A node is shown as it is registered, and as the topology has it. -/
  node : ∀ n ∈ s.nodes, (∃ entry, e.graph.entries.get n.id = some entry ∧ n.kind = entry.kind ∧
    n.deps = entry.deps ∧ n.refCount = entry.refCount) ∧
    e.topology.deps.get n.id = some n.deps ∧ 1 ≤ n.refCount
  edges : ∀ u v, s.edges.count (u, v) = (e.topology.depsOf v).count u

/-- There is a way from the one node to the other along the edges of the snapshot. -/
def GraphSnapshot.Leads (s : GraphSnapshot) : NodeId → NodeId → Prop :=
  Relation.TransGen fun u v => (u, v) ∈ s.edges

namespace Engine

variable {e : Engine V}

/-! ## Snapshots -/

/-- What a snapshot says of a registered node: its kind, its dependencies as it was registered, and
its count. -/
def infoOf (e : Engine V) (id : NodeId) : Option NodeInfo :=
  (e.graph.entries.get id).map fun entry => ⟨id, entry.kind, entry.deps, entry.refCount⟩

/-- The edges into a node, as its entry lists them, one for each time it reads the dependency. -/
def edgesInto (e : Engine V) (id : NodeId) : List (NodeId × NodeId) :=
  (e.graph.depsOf id).map fun dep => (dep, id)

theorem foldl_snapshotNode (l : List NodeId) (s : GraphSnapshot) :
    l.foldl e.snapshotNode s =
      ⟨s.nodes ++ l.filterMap e.infoOf, s.edges ++ l.flatMap e.edgesInto⟩ := by
  induction l generalizing s with
  | nil => simp
  | cons id l ih =>
    rw [List.foldl_cons, ih]
    cases hentry : e.graph.entries.get id with
    | none => simp [snapshotNode, infoOf, edgesInto, Graph.depsOf, hentry]
    | some entry => simp [snapshotNode, infoOf, edgesInto, Graph.depsOf, hentry]

theorem snapshot_eq (order : IterOrder) (e : Engine V) : e.snapshot order =
    ⟨(order.iter e.active).filterMap e.infoOf, (order.iter e.active).flatMap e.edgesInto⟩ := by
  rw [snapshot, foldl_snapshotNode]
  rfl

/-- Every registered node of the walk is shown, under its own id. -/
theorem ids_filterMap_infoOf {l : List NodeId} (h : ∀ id ∈ l, id ∈ e.graph.entries.keys) :
    (l.filterMap e.infoOf).map NodeInfo.id = l := by
  induction l with
  | nil => rfl
  | cons id l ih =>
    obtain ⟨entry, hentry⟩ := FinMap.exists_get_of_mem_keys (h id List.mem_cons_self)
    have hinfo : e.infoOf id = some ⟨id, entry.kind, entry.deps, entry.refCount⟩ := by
      rw [infoOf, hentry, Option.map_some]
    rw [List.filterMap_cons_some hinfo, List.map_cons,
      ih fun id' hid' => h id' (List.mem_cons_of_mem _ hid')]

theorem count_edgesInto (e : Engine V) (id u v : NodeId) :
    (e.edgesInto id).count (u, v) = if id = v then (e.graph.depsOf v).count u else 0 := by
  unfold edgesInto
  split
  · next heq =>
    subst heq
    exact List.count_map_of_injective _ _ (fun a b hab => (Prod.mk.inj hab).1) u
  · next hne =>
    refine List.count_eq_zero.mpr fun hmem => ?_
    obtain ⟨dep, -, heq⟩ := List.mem_map.mp hmem
    exact hne (Prod.mk.inj heq).2

/-- An edge is shown as often as its node lists it, if the node is in the walk. By induction on the
walk, which has no node twice. -/
theorem count_flatMap_edgesInto {l : List NodeId} (hnd : l.Nodup) (u v : NodeId) :
    (l.flatMap e.edgesInto).count (u, v) = if v ∈ l then (e.graph.depsOf v).count u else 0 := by
  induction l with
  | nil => rfl
  | cons id l ih =>
    obtain ⟨hid, hnd⟩ := List.nodup_cons.mp hnd
    rw [List.flatMap_cons, List.count_append, count_edgesInto, ih hnd]
    by_cases hv : id = v
    · subst hv
      rw [if_pos rfl, if_neg hid, if_pos List.mem_cons_self, Nat.add_zero]
    · rw [if_neg hv, Nat.zero_add]
      simp only [List.mem_cons, Ne.symm hv, false_or]

theorem Represented.active_subset (h : e.Represented) : e.active ⊆ e.graph.entries.keys :=
  h.wired.active_subset

/-- **A snapshot shows the engine it was taken of**, in any order of the walk. The clauses are those
of the representation invariant. -/
theorem Represented.snapshot (h : e.Represented) (order : IterOrder) :
    (e.snapshot order).Of e := by
  have hids : ((order.iter e.active).filterMap e.infoOf).map NodeInfo.id = order.iter e.active :=
    ids_filterMap_infoOf fun id hid => h.active_subset ((order.mem_iter _ _).mp hid)
  rw [snapshot_eq]
  refine ⟨?_, fun id => ?_, fun n hn => ?_, fun u v => ?_⟩
  · simp only [hids]
    exact order.nodup_iter e.active
  · simp only [hids]
    exact order.mem_iter e.active id
  · obtain ⟨id, hid, hinfo⟩ := List.mem_filterMap.mp hn
    obtain ⟨entry, hentry, rfl⟩ := Option.map_eq_some_iff.mp hinfo
    obtain ⟨entry', hentry', hdeps⟩ := h.deps id ((order.mem_iter _ _).mp hid)
    obtain rfl := Option.some.inj (hentry.symm.trans hentry')
    exact ⟨⟨entry, hentry, rfl, rfl, rfl⟩, hdeps, h.counted id entry hentry⟩
  · simp only [count_flatMap_edgesInto (order.nodup_iter e.active), order.mem_iter]
    split
    · next hv => rw [← h.wired.depsOf hv]
    · next hv =>
      rw [← h.keys] at hv
      rw [Topology.depsOf_of_notMem hv, List.count_nil]

/-- **A change takes no way that the snapshot does not show**, and, if every edge is listed alike
both ways, each that it shows. Both are paths, of dependents on one side and of shown edges on the
other, so it is enough to compare single steps. -/
theorem Represented.leads (h : e.Represented) (order : IterOrder) (u v : NodeId) :
    (e.topology.Downstream u v → (e.snapshot order).Leads u v) ∧
      (Exact e.topology → (e.snapshot order).Leads u v → e.topology.Downstream u v) := by
  have hedge : ∀ a b, (a, b) ∈ (e.snapshot order).edges ↔ a ∈ e.topology.depsOf b := fun a b => by
    rw [← List.count_pos_iff, (h.snapshot order).edges, List.count_pos_iff]
  refine ⟨fun huv => Relation.TransGen.mono (fun a b hab => ?_) u v huv,
    fun hex huv => Relation.TransGen.mono (fun a b hab => ?_) u v huv⟩
  · exact (hedge a b).mpr (Topology.AtMost.mem_depsOf h.edges hab)
  · refine List.count_pos_iff.mp ?_
    rw [hex, List.count_pos_iff]
    exact (hedge a b).mp hab

end Engine

/-- **Snapshots are faithful.** In every state of every run a snapshot shows each active node once,
as it is registered, and each edge as often as it is listed; what a cycle finds dirty is behind an
updated node in it, and, unless nodes were removed from under others, so is nothing else.

The invariant is the representation of the registry by the topology, which holds of every run; what
is dirty is what is downstream, by the exactness of the dirty set. -/
theorem snapshot_faithful (calls : List (Call V)) (order : IterOrder) :
    Runs.Always Session.apply (fun s => (s.engine.snapshot order).Of s.engine ∧
      ∀ (walk : IterOrder) (sources : Finset NodeId) (v : NodeId),
        (v ∈ s.engine.topology.dirtySet walk sources →
          ∃ u ∈ sources, (s.engine.snapshot order).Leads u v) ∧
        (Exact s.engine.topology → (∃ u ∈ sources, (s.engine.snapshot order).Leads u v) →
          v ∈ s.engine.topology.dirtySet walk sources)) Session.init calls := by
  refine Runs.always_of_step (I := fun s : Session V => s.engine.Represented)
    (fun _ c h => Session.represented_apply h c)
    (fun s h => ⟨h.snapshot order, fun walk sources v => ⟨fun hv => ?_, ?_⟩⟩)
    Engine.Represented.new
  · obtain ⟨u, hu, huv⟩ := Topology.mem_dirtySet.mp hv
    exact ⟨u, hu, (h.leads order u v).1 huv⟩
  · rintro hex ⟨u, hu, huv⟩
    exact Topology.mem_dirtySet.mpr ⟨u, hu, (h.leads order u v).2 hex huv⟩

/-! ## Counters -/

namespace Engine

variable {e : Engine V}

/-- The walk adds the nodes of a kind to the kind's counter, and leaves the other counters. By
induction on the walk. -/
theorem foldl_countActive (l : List NodeId) (c : ActiveCounts) (kind : NodeKind) :
    (l.foldl e.countActive c).of kind =
      c.of kind + (l.filterMap e.infoOf).countP fun n => n.kind = kind := by
  induction l generalizing c with
  | nil => rfl
  | cons id l ih =>
    rw [List.foldl_cons, ih]
    cases hentry : e.graph.entries.get id with
    | none => simp [countActive, infoOf, hentry]
    | some entry =>
      have hadd : (c.add entry.kind).of kind =
          c.of kind + if entry.kind = kind then 1 else 0 := by
        cases entry.kind <;> cases kind <;> rfl
      simp only [countActive, infoOf, hentry, hadd, List.filterMap_cons, Option.map_some,
        List.countP_cons, decide_eq_true_eq]
      omega

theorem snapshot_nodes_perm (order order' : IterOrder) (e : Engine V) :
    (e.snapshot order).nodes.Perm (e.snapshot order').nodes := by
  rw [snapshot_eq, snapshot_eq]
  refine List.Perm.filterMap _ ((List.perm_ext_iff_of_nodup (order.nodup_iter _)
    (order'.nodup_iter _)).mpr fun id => ?_)
  rw [order.mem_iter, order'.mem_iter]

end Engine

/-- What the metrics count is what the snapshot shows, kind by kind, and the four add up to all of
it. -/
structure EngineMetrics.Counts (m : EngineMetrics) (s : GraphSnapshot) : Prop where
  sources : m.activeSources = s.nodes.countP fun n => n.kind = .source
  computes : m.activeComputes = s.nodes.countP fun n => n.kind = .compute
  sinks : m.activeSinks = s.nodes.countP fun n => n.kind = .sink
  asyncComputes : m.activeAsyncComputes = s.nodes.countP fun n => n.kind = .asyncCompute
  total : m.activeSources + m.activeComputes + m.activeSinks + m.activeAsyncComputes =
    s.nodes.length

theorem Engine.counts_engineMetrics (order order' : IterOrder) (e : Engine V) :
    (e.engineMetrics order).Counts (e.snapshot order') := by
  have hcount : ∀ kind, ((order.iter e.active).foldl e.countActive ⟨0, 0, 0, 0⟩).of kind =
      (e.snapshot order').nodes.countP fun n => n.kind = kind := by
    intro kind
    rw [foldl_countActive, ← (snapshot_nodes_perm order order' e).countP_eq, snapshot_eq]
    cases kind <;> exact Nat.zero_add _
  have htotal : ∀ l : List NodeInfo, (l.countP fun n => n.kind = .source) +
      (l.countP fun n => n.kind = .compute) + (l.countP fun n => n.kind = .sink) +
        (l.countP fun n => n.kind = .asyncCompute) = l.length := by
    intro l
    induction l with
    | nil => rfl
    | cons n l ih =>
      simp only [List.countP_cons, List.length_cons]
      cases hk : n.kind <;> simp <;> omega
  refine ⟨hcount .source, hcount .compute, hcount .sink, hcount .asyncCompute, ?_⟩
  rw [← htotal, ← hcount .source, ← hcount .compute, ← hcount .sink, ← hcount .asyncCompute]
  rfl

/-! ## Cycles -/

namespace Engine

variable {e e' : Engine V}

/-- What a cycle reports about itself. The number of nodes is that of the sorted list, also of a
parallel cycle, which may stop before the end of it; and a parallel cycle times none. -/
def report (o : CycleOrder) (parallel : Bool) (e : Engine V) : CycleMetrics where
  cycleId := e.metrics.totalCycles + 1
  nodesComputed := (e.sortedOf o).length
  timed := if parallel then ∅ else (e.received.executeSequentialWithAsync (e.sortedOf o)).timed

theorem metrics_foldl_collectSpawns (l : List NodeId) (p : Engine V × List (AsyncSpawn V)) :
    (l.foldl collectSpawns p).1.metrics = p.1.metrics := by
  induction l generalizing p with
  | nil => rfl
  | cons id l ih =>
    rw [List.foldl_cons, ih]
    unfold collectSpawns
    split
    · rfl
    · split
      · simp only [trigger]
        split <;> rfl
      · rfl

/-- **A cycle that finds something to do is counted and reported**, and no other. The early return
leaves the metrics as they were. -/
theorem metrics_runCycleImpl (o : CycleOrder) (parallel : Bool) (e : Engine V) :
    (runCycleImpl o parallel e).metrics = if e.updated = ∅ then e.metrics
      else e.metrics.recordCycle (e.report o parallel) := by
  rw [runCycleImpl_eq]
  split
  · rfl
  · cases parallel with
    | false =>
      have hmetrics : (e.received.executeSequentialWithAsync (e.sortedOf o)).engine.metrics =
          e.metrics := by
        rw [(executeSequentialWithAsync_eq e.received _).1]
        rfl
      exact congrArg (fun m : MetricsCollector => m.recordCycle ⟨m.totalCycles + 1, _, _⟩) hmetrics
    | true =>
      have hmetrics : (e.received.executeParallelWithAsync o.waves (e.sortedOf o)
          (e.topology.dirtySet o.sources e.updated)).1.metrics = e.metrics := by
        rw [executeParallelWithAsync_eq, metrics_foldl_collectSpawns]
        rfl
      exact congrArg (fun m : MetricsCollector => m.recordCycle ⟨m.totalCycles + 1, _, _⟩) hmetrics

/-- A sequential cycle takes the time of every node it goes through, async ones included, since each
is registered. -/
theorem Represented.timed_report (h : e.Represented) (o : CycleOrder) :
    (e.report o false).timed = (e.sortedOf o).toFinset := by
  ext v
  have hsub : v ∈ e.sortedOf o → v ∈ e.graph.entries.keys := by
    intro hv
    exact h.active_subset (h.active_of_dirty
      (mem_dirty.mp ((Topology.sorted_topoSort h.edges o.dirty _).subset v hv)))
  refine (timed_foldl_executeNode (e.sortedOf o) ⟨e.received, [], ∅⟩ v).trans ?_
  rw [or_iff_right (Finset.notMem_empty v), (sameFrame_received e).entries, List.mem_toFinset]
  exact and_iff_left_of_imp hsub

theorem metrics_finishActivation (e : Engine V) (id : NodeId) (kind : NodeKind) :
    (e.finishActivation id kind).metrics = e.metrics := by
  cases kind with
  | source =>
    simp only [finishActivation, invokeActivate]
    split <;> rfl
  | compute =>
    simp only [finishActivation, initialCompute]
    split
    · split
      · split <;> rfl
      · rfl
    · rfl
  | sink => rfl
  | asyncCompute => rfl

theorem metrics_activateSink (e : Engine V) (id : NodeId) :
    (e.activateSink id).metrics = e.metrics :=
  (activateNode_induction (P := fun e' => e'.metrics = e.metrics) (fun _ _ _ h _ _ => h)
    (fun e' id entry h _ _ => (metrics_finishActivation e' id entry.kind).trans h) _ id
    (drainPendingRemovals_induction (P := fun e' => e'.metrics = e.metrics)
      (fun _ _ _ h _ _ => h) (fun _ _ _ h _ _ => h) rfl)).1

theorem metrics_drainPendingRemovals (e : Engine V) : e.drainPendingRemovals.metrics = e.metrics :=
  drainPendingRemovals_induction (P := fun e' => e'.metrics = e.metrics) (fun _ _ _ h _ _ => h)
    (fun _ _ _ h _ _ => h) rfl

theorem metrics_merge (e : Engine V) (s : Subgraph V) : (e.merge s).1.metrics = e.metrics := by
  have hsinks : ∀ (ids : List NodeId) (e' : Engine V),
      (ids.foldl activateIfSink e').metrics = e'.metrics := by
    intro ids
    induction ids with
    | nil => exact fun _ => rfl
    | cons id ids ih =>
      intro e'
      rw [List.foldl_cons, ih]
      unfold activateIfSink
      split
      · split
        · exact metrics_activateSink e' id
        · rfl
      · rfl
  exact (hsinks s.nodeIds _).trans (metrics_drainPendingRemovals e)

end Engine

namespace Session

/-- The call is a cycle that finds something to do, once the removals that were deferred are done: a
value in the source channel or a result. -/
def Finds (s : Session V) (c : Call V) : Prop :=
  c.cycle.isSome ∧ s.engine.drainPendingRemovals.updated ≠ ∅

instance (s : Session V) (c : Call V) : Decidable (s.Finds c) :=
  inferInstanceAs (Decidable (_ ∧ _))

/-- How many of the calls are cycles that find something to do, each looked at in the state before
it. -/
def cyclesAlong : Session V → List (Call V) → ℕ
  | _, [] => 0
  | s, c :: calls => (if s.Finds c then 1 else 0) + cyclesAlong (s.apply c) calls

theorem cyclesAlong_append (s : Session V) (calls : List (Call V)) (c : Call V) :
    s.cyclesAlong (calls ++ [c]) =
      s.cyclesAlong calls + if (Runs.run apply s calls).Finds c then 1 else 0 := by
  induction calls generalizing s with
  | nil => rw [List.nil_append, cyclesAlong, cyclesAlong, cyclesAlong, Runs.run_nil]; omega
  | cons c' calls ih =>
    rw [List.cons_append, cyclesAlong, ih, cyclesAlong, Runs.run_cons]
    omega

/-- No other call touches the counters. One case for each kind of call; the removals that come first
leave the metrics alone too. -/
theorem metrics_apply_of_not_cycle {s : Session V} {c : Call V} (h : c.cycle = none) :
    (s.apply c).engine.metrics = s.engine.metrics := by
  cases c with
  | graph => exact metrics_drainPendingRemovals s.engine
  | register desc => rfl
  | merge descs => exact metrics_merge s.engine (SubgraphBuilder.ofList descs)
  | dropHandle i =>
    simp only [apply]
    split
    · simp only [Engine.dropHandle]
      split <;> rfl
    · rfl
  | dropRemote i =>
    simp only [apply]
    split <;> rfl
  | remove =>
    simp only [apply]
    split
    · exact release_induction (P := fun e' => e'.metrics = s.engine.metrics)
        (fun _ _ _ h _ _ => h) (fun _ _ _ h _ _ => h) _ rfl
    · rfl
  | deactivateNode id =>
    exact deactivateNode_induction (P := fun e' => e'.metrics = s.engine.metrics)
      (fun _ _ _ h _ _ => h) (fun _ _ _ h _ _ => h) _ id rfl
  | activateSink id => exact metrics_activateSink s.engine id
  | setErrorStrategy | concurrencyGroup | interpose | send | update | complete => rfl
  | forward =>
    simp only [apply, Engine.forward]
    split <;> rfl
  | runCycle o => exact absurd h (by simp [Call.cycle])
  | runCycleParallel o => exact absurd h (by simp [Call.cycle])

/-- What a call does to the counters: nothing, or what recording its report does. -/
theorem metrics_apply (s : Session V) (c : Call V) :
    (¬ s.Finds c ∧ (s.apply c).engine.metrics = s.engine.metrics) ∨
      (s.Finds c ∧ ∃ o parallel, c.cycle = some (o, parallel) ∧ (s.apply c).engine.metrics =
        s.engine.metrics.recordCycle (s.engine.drainPendingRemovals.report o parallel)) := by
  cases hc : c.cycle with
  | none => exact Or.inl ⟨by simp [Finds, hc], metrics_apply_of_not_cycle hc⟩
  | some p =>
    obtain ⟨o, parallel⟩ := p
    have hmetrics := metrics_runCycleImpl o parallel s.engine.drainPendingRemovals
    rw [metrics_drainPendingRemovals, ← engine_apply_cycle hc] at hmetrics
    by_cases hempty : s.engine.drainPendingRemovals.updated = ∅
    · rw [if_pos hempty] at hmetrics
      exact Or.inl ⟨by simp [Finds, hempty], hmetrics⟩
    · rw [if_neg hempty] at hmetrics
      exact Or.inr ⟨⟨by simp [hc], hempty⟩, o, parallel, rfl, hmetrics⟩

/-- The last cycle of the run that found something to do, and what it reported: it went through
dirty nodes, each of them once, and took the time of every one unless it was a parallel one. -/
def LastReported (calls : List (Call V)) (m : CycleMetrics) : Prop :=
  ∃ pre c post o parallel, calls = pre ++ c :: post ∧ c.cycle = some (o, parallel) ∧
    (run pre).Finds c ∧ (run (pre ++ [c])).cyclesAlong post = 0 ∧
    m.cycleId = (init : Session V).cyclesAlong calls ∧
    ∃ sorted : List NodeId, sorted = (run pre).engine.drainPendingRemovals.sortedOf o ∧
      sorted.Nodup ∧ (∀ v ∈ sorted, (run pre).engine.drainPendingRemovals.Dirty v) ∧
      m.nodesComputed = sorted.length ∧ m.timed = if parallel then ∅ else sorted.toFinset

end Session

/-- **The metrics of every run**: cycles are counted that found something to do, the last report is
that of the last of these, and the active nodes are counted as a snapshot shows them.

By induction on the run from its end, with one call's effect on the counters at each step; a call
that is no such cycle moves the witness of the last report along. -/
theorem metrics_run (calls : List (Call V)) (order order' : IterOrder) :
    let m := (Session.run calls).engine.engineMetrics order
    m.totalCycles = (Session.init : Session V).cyclesAlong calls ∧
      (m.lastCycle = none ↔ m.totalCycles = 0) ∧
      (∀ last, m.lastCycle = some last → Session.LastReported calls last) ∧
      m.Counts ((Session.run calls).engine.snapshot order') := by
  suffices h : (Session.run calls).engine.metrics.totalCycles =
      (Session.init : Session V).cyclesAlong calls ∧
      ((Session.run calls).engine.metrics.lastCycle = none ↔
        (Session.run calls).engine.metrics.totalCycles = 0) ∧
      ∀ last, (Session.run calls).engine.metrics.lastCycle = some last →
        Session.LastReported calls last from
    ⟨h.1, h.2.1, h.2.2, counts_engineMetrics order order' _⟩
  induction calls using List.reverseRecOn with
  | nil => exact ⟨rfl, ⟨fun _ => rfl, fun _ => rfl⟩, fun last h => absurd h (by
      simp [Session.run, Session.init, Engine.new])⟩
  | append_singleton calls c ih =>
    obtain ⟨htotal, hnone, hlast⟩ := ih
    have hrun : Session.run (calls ++ [c]) = (Session.run calls).apply c := by
      rw [Session.run, Runs.run_append]
      rfl
    have hcount := (Session.init : Session V).cyclesAlong_append calls c
    rw [← Session.run] at hcount
    obtain ⟨hnot, hmetrics⟩ | ⟨hfinds, o, parallel, hc, hmetrics⟩ :=
      (Session.run calls).metrics_apply c
    -- no cycle, or one that found nothing: the last report is still that of the cycle it was of
    · rw [if_neg hnot, Nat.add_zero] at hcount
      rw [hrun, hmetrics, hcount]
      refine ⟨htotal, hnone, fun last h => ?_⟩
      obtain ⟨pre, c', post, o, parallel, rfl, hc, hf, hzero, hid, hrest⟩ := hlast last h
      refine ⟨pre, c', post ++ [c], o, parallel, by simp, hc, hf, ?_, hcount ▸ hid, hrest⟩
      rw [Session.cyclesAlong_append, hzero, Nat.zero_add, if_neg]
      rwa [Session.run, ← Runs.run_append, List.append_assoc, List.singleton_append, ← Session.run]
    · rw [if_pos hfinds] at hcount
      rw [hrun, hmetrics, hcount]
      -- a cycle that found something is the last of the run so far
      have hrep : (Session.run calls).engine.Represented :=
        Runs.invariant_of_step (I := fun s : Session V => s.engine.Represented)
          (fun _ c h => Session.represented_apply h c) Engine.Represented.new
      have hrep' := Engine.Represented.stable.drainPendingRemovals hrep
      have hsorted := Topology.sorted_topoSort hrep'.edges o.dirty
        ((Session.run calls).engine.drainPendingRemovals.topology.dirtySet o.sources
          (Session.run calls).engine.drainPendingRemovals.updated)
      refine ⟨by simp [MetricsCollector.recordCycle, htotal],
        by simp [MetricsCollector.recordCycle], fun last h => ?_⟩
      obtain rfl := Option.some.inj h
      refine ⟨calls, c, [], o, parallel, rfl, hc, hfinds, rfl, ?_, _, rfl, hsorted.nodup,
        fun v hv => mem_dirty.mp (hsorted.subset v hv), rfl, ?_⟩
      · rw [hcount, ← htotal]
        exact congrArg (fun m : MetricsCollector => m.totalCycles + 1)
          (metrics_drainPendingRemovals _)
      · cases parallel with
        | false => exact hrep'.timed_report o
        | true => rfl

end ReactiveGraph
