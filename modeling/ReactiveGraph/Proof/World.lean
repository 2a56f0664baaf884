import ReactiveGraph.Model.World
import ReactiveGraph.Proof.Cycle
import ReactiveGraph.Proof.Merge

/-!
# What every run keeps

`Engine.Ok` is what the state of an engine is supposed to be: what is active is wired into the
topology with both edge lists agreeing, its dependencies are active too, every entry is counted at
least once and the removal queue is empty. Nothing a client can do breaks the first part. The
second, that the dependencies of what is active are active, needs two things of the client: that
they are registered when a node is activated (`Supplied`), and that no dropped handle takes one of
them away. The lemmas here are one for each action; what is assumed of the drops is left to the
theorems about them.

**Two kinds of facts**, then. `World.wired_run` holds of every run, and gives the hypothesis that
many theorems about a single cycle have. `World.ok_apply` is a step lemma with a condition on the
action: it holds of any action but a drop, and `Ok.release` says what a drop would have to satisfy.
Runs are put together from them where the condition is known.

**What clients bring in** is carried along a run in the same way: every implementation in the
registry came with a descriptor, so what is assumed of descriptors holds of the registry
(`World.impl_apply`). Acyclicity is not of this kind, since two harmless descriptors may close a
cycle together; it is asked of the registry.

The last section has the small graphs on which the theorems of this development are tried: nodes
with numbers for ids that add up what they read, and a rank by which such a graph is seen to be
acyclic.
-/

namespace ReactiveGraph

variable {V : Type*}

namespace Engine

variable {e e' : Engine V}

/-- What the state of an engine is supposed to be, between the actions of a client that supplies
what it activates. -/
structure Ok (e : Engine V) : Prop where
  wired : Wired e
  exact : Exact e.topology
  closed : ∀ v ∈ e.active, ∀ u ∈ e.graph.depsOf v, u ∈ e.active
  positive : RefCount.Positive e.graph.entries
  drained : e.pendingRemovals = []

theorem Ok.new : (new : Engine V).Ok where
  wired := ⟨rfl, fun id deps h => by simp [Engine.new, Topology.new] at h⟩
  exact u v := by simp [Engine.new, Topology.new, Topology.dependentsOf, Topology.depsOf]
  closed v hv := absurd hv (Finset.notMem_empty v)
  positive u c h := by simp [Engine.new, Graph.new] at h
  drained := rfl

theorem Ok.active_subset (h : e.Ok) : e.active ⊆ e.graph.entries.keys := h.wired.active_subset

/-- Only the topology, the active set, the registry and the removal queue matter. -/
theorem Ok.congr (h : e.Ok) (ht : e'.topology = e.topology) (ha : e'.active = e.active)
    (hr : e'.graph.entries = e.graph.entries)
    (hp : e'.pendingRemovals = e.pendingRemovals) : e'.Ok where
  wired := h.wired.congr ht ha hr
  exact := by rw [ht]; exact h.exact
  closed := by rw [ha, depsOf_congr hr]; exact h.closed
  positive := by rw [hr]; exact h.positive
  drained := hp.trans h.drained

theorem Ok.sameFrame (h : e.Ok) (hf : SameFrame e e') : e'.Ok :=
  h.congr hf.topology hf.active hf.entries hf.pendingRemovals

/-- The engine of a run has nothing to drain. -/
theorem Ok.drain_eq (h : e.Ok) : e.drainPendingRemovals = e := drainPendingRemovals_of_nil h.drained

/-- Everything the node depends on, directly or not, is registered. For a subgraph that brings its
own dependencies it holds by construction. -/
def Supplied (graph : Graph V) (id : NodeId) : Prop :=
  ∀ v, Upstream graph v id → ∀ u ∈ graph.depsOf v, u ∈ graph.entries.keys

/-! ## Registering -/

/-- Every entry counts one at least: the descriptor it was made from. -/
theorem positive_registerAll (h : RefCount.Positive e.graph.entries)
    (descs : List (NodeDescriptor V)) :
    RefCount.Positive (e.registerAll descs).graph.entries := by
  intro id entry hentry
  rw [get_registerAll] at hentry
  cases hold : e.graph.entries.get id with
  | some old =>
    rw [hold, registeredEntry, Option.some.injEq] at hentry
    subst hentry
    have := h id old hold
    exact this.trans (Nat.le_add_right _ _)
  | none =>
    rw [hold] at hentry
    obtain ⟨desc, hdesc, rfl⟩ := Option.map_eq_some_iff.mp hentry
    -- a descriptor was found, so there is one to count
    have hmem : id ∈ descs.map NodeDescriptor.id := by
      have hid : desc.id = id := by simpa using List.find?_some hdesc
      exact hid ▸ List.mem_map_of_mem (List.mem_of_find?_eq_some hdesc)
    exact List.count_pos_iff.mpr hmem

theorem Ok.registerAll (h : e.Ok) (descs : List (NodeDescriptor V)) :
    (e.registerAll descs).Ok where
  wired := h.wired.registerAll descs
  exact := h.exact
  closed v hv u hu := by
    rw [depsOf_registerAll (h.active_subset hv)] at hu
    exact h.closed v hv u hu
  positive := positive_registerAll h.positive descs
  drained := h.drained

/-! ## Activating -/

/-- **Activating sinks keeps an engine in order**, if everything they depend on is registered. What
is not registered cannot be activated, and a node above it would then be active on its own. -/
theorem Ok.activateSinks (h : e.Ok) {ids : List NodeId}
    (hsup : ∀ s ∈ ids, HasKind e.graph s .sink → Supplied e.graph s) :
    (ids.foldl activateIfSink e).Ok := by
  obtain ⟨hg, -, hrest⟩ := grown_activateSinks ids h.drained
  refine ⟨wired_activateSinks ids h.drained h.wired,
    exact_activateSinks ids h.drained h.wired h.exact, fun v hv u hu => ?_, ?_,
    hrest.pendingRemovals.trans h.drained⟩
  · rw [depsOf_congr hg.entries] at hu
    by_cases hva : v ∈ e.active
    · exact hg.mono (h.closed v hva u hu)
    · obtain ⟨s, hs, hsink, hvisit⟩ := hg.bound v hv hva
      exact hg.closed v hv hva u hu (hsup s hs hsink v hvisit.upstream u hu)
  · rw [hg.entries]
    exact h.positive

theorem Ok.activateSink (h : e.Ok) {id : NodeId} (hsup : Supplied e.graph id) :
    (e.activateSink id).Ok := by
  rw [Engine.activateSink, h.drain_eq]
  obtain ⟨hg, -⟩ := grown_activate e id
  refine ⟨h.wired.activate id, exact_activate h.wired h.exact id, fun v hv u hu => ?_, ?_,
    (sameRest_activate e id).pendingRemovals.trans h.drained⟩
  · rw [depsOf_congr hg.entries] at hu
    by_cases hva : v ∈ e.active
    · exact hg.mono (h.closed v hva u hu)
    · exact hg.closed v hv hva u hu (hsup v (hg.bound v hv hva).upstream u hu)
  · rw [hg.entries]
    exact h.positive

/-- With nothing to drain a merge is a registration and an activation. -/
theorem merge_eq (hp : e.pendingRemovals = []) (s : Subgraph V) : (e.merge s).1 =
    s.nodeIds.foldl activateIfSink (e.registerAll s.descriptors) := by
  rw [Engine.merge, drainPendingRemovals_of_nil hp]

theorem Ok.merge (h : e.Ok) {s : Subgraph V} (hsup : ∀ id ∈ s.nodeIds,
    HasKind (e.registerAll s.descriptors).graph id .sink →
      Supplied (e.registerAll s.descriptors).graph id) : (e.merge s).1.Ok := by
  rw [merge_eq h.drained]
  exact (h.registerAll s.descriptors).activateSinks hsup

/-! ## Dropping -/

/-- With nothing else to drain, dropping a handle and draining the queue releases the handle's
nodes. -/
theorem drop_eq (hp : e.pendingRemovals = []) (handle : SubgraphHandle) :
    (e.dropHandle handle).drainPendingRemovals = e.release handle.nodeIds := by
  obtain ⟨graph, topology, guards, active, am, es, metrics, pending, effects⟩ := e
  obtain rfl : pending = [] := hp
  by_cases hids : handle.nodeIds = []
  · rw [dropHandle, if_pos hids, hids]
    rfl
  · rw [dropHandle, if_neg hids]
    rfl

theorem pendingRemovals_release (e : Engine V) (nodeIds : List NodeId) :
    (e.release nodeIds).pendingRemovals = e.pendingRemovals :=
  release_induction (P := fun e' => e'.pendingRemovals = e.pendingRemovals)
    (fun _ _ _ h _ _ => h) (fun _ _ _ h _ _ => h) nodeIds rfl

/-- Both edge lists agree where the dependencies of what is active are active: then every edge is
one between nodes in the topology, where removals keep both sides. -/
theorem EdgesOk.exact (h : e.EdgesOk) (hw : Wired e)
    (hclosed : ∀ v ∈ e.active, ∀ u ∈ e.graph.depsOf v, u ∈ e.active) : Exact e.topology := by
  intro u v
  by_cases hu : u ∈ e.active
  · exact h.2 u (by rwa [hw.keys]) v
  · have hnot : u ∉ e.topology.depsOf v := by
      intro hmem
      by_cases hv : v ∈ e.active
      · rw [hw.depsOf hv] at hmem
        exact hu (hclosed v hv u hmem)
      · rw [hw.depsOf_of_notMem hv] at hmem
        exact List.not_mem_nil hmem
    have := h.1 u v
    rw [List.count_eq_zero.mpr hnot] at this ⊢
    omega

/-- What a release leaves active is what was active and is still registered. -/
theorem Wired.mem_active_release (h : Wired e) {nodeIds : List NodeId} {v : NodeId} :
    v ∈ (e.release nodeIds).active ↔
      v ∈ e.active ∧ v ∈ (e.release nodeIds).graph.entries.keys := by
  rw [(shrinks_release e nodeIds).active, Removed]
  constructor
  · rintro ⟨hv, hr⟩
    refine ⟨hv, ?_⟩
    by_contra hnot
    exact hr ⟨h.active_subset hv, hnot⟩
  · rintro ⟨hv, hreg⟩
    exact ⟨hv, fun hr => hr.2 hreg⟩

/-- A node that survives keeps its dependencies. -/
theorem depsOf_release {nodeIds : List NodeId} {v : NodeId}
    (hv : v ∈ (e.release nodeIds).graph.entries.keys) :
    (e.release nodeIds).graph.depsOf v = e.graph.depsOf v := by
  obtain ⟨entry', hentry'⟩ := FinMap.exists_get_of_mem_keys hv
  obtain ⟨entry, hentry, -, hdeps, -⟩ := (shrinks_release e nodeIds).entries v entry' hentry'
  rw [Graph.depsOf_of_get hentry', Graph.depsOf_of_get hentry, hdeps]

/-- **A release keeps an engine in order**, if no active node that survives loses a dependency. The
condition compares the registry before and after, and says nothing of counts. -/
theorem Ok.release (h : e.Ok) {nodeIds : List NodeId}
    (hkeep : ∀ v ∈ e.active, v ∈ (e.release nodeIds).graph.entries.keys →
      ∀ u ∈ e.graph.depsOf v, u ∈ (e.release nodeIds).graph.entries.keys) :
    (e.release nodeIds).Ok := by
  have hw : Wired (e.release nodeIds) := h.wired.release nodeIds
  have hclosed : ∀ v ∈ (e.release nodeIds).active,
      ∀ u ∈ (e.release nodeIds).graph.depsOf v, u ∈ (e.release nodeIds).active := by
    intro v hv u hu
    obtain ⟨hva, hvreg⟩ := h.wired.mem_active_release.mp hv
    rw [depsOf_release hvreg] at hu
    exact h.wired.mem_active_release.mpr ⟨h.closed v hva u hu, hkeep v hva hvreg u hu⟩
  refine ⟨hw, ((EdgesOk.of_exact h.exact).release nodeIds).exact hw hclosed, hclosed, ?_,
    (pendingRemovals_release e nodeIds).trans h.drained⟩
  rw [entries_release]
  exact h.positive.release

/-! ## Everything else -/

theorem Ok.send (h : e.Ok) (id : NodeId) (value : V) : (e.send id value).Ok :=
  h.congr rfl rfl (Graph.entries_sendSource _ _ _) rfl

theorem Ok.runCycle (h : e.Ok) (o : CycleOrder) : (e.runCycle o).Ok := by
  rw [Engine.runCycle, h.drain_eq]
  exact h.sameFrame (sameFrame_runCycleImpl o false e)

theorem Ok.runCycleParallel (h : e.Ok) (o : CycleOrder) : (e.runCycleParallel o).Ok := by
  rw [Engine.runCycleParallel, h.drain_eq]
  exact h.sameFrame (sameFrame_runCycleImpl o true e)

/-- Registration brings in the descriptors' implementations and changes none. -/
theorem registerAll_impl {P : AnyNodeImpl V → List NodeId → Prop}
    (h : ∀ id entry, e.graph.entries.get id = some entry → P entry.nodeImpl entry.deps)
    {descs : List (NodeDescriptor V)} (hd : ∀ desc ∈ descs, P desc.nodeImpl desc.deps) :
    ∀ id entry, (e.registerAll descs).graph.entries.get id = some entry →
      P entry.nodeImpl entry.deps := by
  intro id entry hentry
  cases hold : e.graph.entries.get id with
  | some old =>
    obtain rfl := Option.some.inj ((registerAll_of_get hold descs).symm.trans hentry)
    exact h id old hold
  | none =>
    obtain ⟨desc, hdesc, -, -, hdeps, himpl⟩ := registerAll_of_none hold hentry
    rw [himpl, hdeps]
    exact hd desc hdesc

theorem drain_impl {P : AnyNodeImpl V → List NodeId → Prop}
    (h : ∀ id entry, e.graph.entries.get id = some entry → P entry.nodeImpl entry.deps) :
    ∀ id entry, e.drainPendingRemovals.graph.entries.get id = some entry →
      P entry.nodeImpl entry.deps := by
  intro id entry' hentry'
  obtain ⟨entry, hentry, -, hdeps, himpl⟩ :=
    (shrinks_drainPendingRemovals e).entries id entry' hentry'
  rw [himpl, hdeps]
  exact h id entry hentry

end Engine

open Engine

/-! ## Runs -/

/-- Every dependency of what an action activates is registered when it does. -/
def Action.Supplied (w : World V) : Action V → Prop
  | .merge descs =>
    let e := w.engine.registerAll (SubgraphBuilder.ofList descs).descriptors
    ∀ id ∈ (SubgraphBuilder.ofList descs).nodeIds, Engine.HasKind e.graph id .sink →
      Engine.Supplied e.graph id
  | .activateSink id => Engine.Supplied w.engine.graph id
  | _ => True

def Action.isDrop : Action V → Bool
  | .drop _ => true
  | _ => false

/-- **Whatever a client does keeps the wiring**, drops and parallel cycles included. There is no
condition on the action. -/
theorem World.wired_apply {w : World V} (h : Wired w.engine) (a : Action V) :
    Wired (w.apply a).engine := by
  have hdrain := h.drainPendingRemovals
  cases a with
  | register desc => exact hdrain.registerAll [desc]
  | merge descs =>
    exact wired_activateSinks _ (pendingRemovals_drainPendingRemovals w.engine)
      (hdrain.registerAll _)
  | drop i =>
    simp only [World.apply]
    split
    -- the drop itself only queues the list; the drain that follows does the removal
    · next held _ =>
      refine Wired.drainPendingRemovals (h.congr ?_ ?_ ?_) <;>
        · unfold dropHandle
          split <;> rfl
    · exact h
  | activateSink id => exact hdrain.activate id
  | setErrorStrategy id strategy => exact h.congr rfl rfl rfl
  | concurrencyGroup n => exact h.congr rfl rfl rfl
  | send id value => exact h.congr rfl rfl (Graph.entries_sendSource w.engine.graph id value)
  | complete task => exact h.congr rfl rfl rfl
  | runCycle o =>
    have hframe := sameFrame_runCycleImpl o false w.engine.drainPendingRemovals
    exact hdrain.congr hframe.topology hframe.active hframe.entries
  | runCycleParallel o =>
    have hframe := sameFrame_runCycleImpl o true w.engine.drainPendingRemovals
    exact hdrain.congr hframe.topology hframe.active hframe.entries

/-- The engine of every run is wired: so the hypothesis of that name, where a theorem about one
cycle has it, is met in every state that a client can reach. -/
theorem World.wired_run (as : List (Action V)) : Wired (World.run as).engine :=
  Runs.invariant_of_step (I := fun w : World V => Wired w.engine)
    (fun _ a hw => World.wired_apply hw a) Ok.new.wired

/-- **Whatever a client does but drop handles keeps an engine in order**, as long as it supplies
what it activates. -/
theorem World.ok_apply {w : World V} (h : w.engine.Ok) {a : Action V} (hsup : a.Supplied w)
    (hdrop : a.isDrop = false) : (w.apply a).engine.Ok := by
  cases a with
  | register desc =>
    simp only [apply, Engine.register, h.drain_eq]
    exact h.registerAll _
  | merge descs => exact h.merge hsup
  | drop i => exact absurd hdrop (by simp [Action.isDrop])
  | activateSink id => exact h.activateSink hsup
  | setErrorStrategy id strategy => exact h.congr rfl rfl rfl rfl
  | concurrencyGroup n => exact h.congr rfl rfl rfl rfl
  | send id value => exact h.send id value
  | complete task => exact h.congr rfl rfl rfl rfl
  | runCycle o => exact h.runCycle o
  | runCycleParallel o => exact h.runCycleParallel o

/-- Every implementation the action brings in satisfies `P`, for the dependencies it comes with. -/
def Action.Brings (P : AnyNodeImpl V → List NodeId → Prop) : Action V → Prop
  | .register desc => P desc.nodeImpl desc.deps
  | .merge descs => ∀ desc ∈ descs, P desc.nodeImpl desc.deps
  | _ => True

/-- **Implementations come from descriptors**, and nothing changes one. A node that is there already
keeps its own, whatever a later descriptor for it says. -/
theorem World.impl_apply {P : AnyNodeImpl V → List NodeId → Prop} {w : World V}
    (h : ∀ id entry, w.engine.graph.entries.get id = some entry → P entry.nodeImpl entry.deps)
    {a : Action V} (ha : a.Brings P) :
    ∀ id entry, (w.apply a).engine.graph.entries.get id = some entry →
      P entry.nodeImpl entry.deps := by
  have hdrain := drain_impl h
  cases a with
  | register desc =>
    exact registerAll_impl hdrain fun d hd => by rw [List.mem_singleton.mp hd]; exact ha
  | merge descs =>
    intro id entry hentry
    refine registerAll_impl hdrain (fun d hd => ha d (SubgraphBuilder.mem_descriptors_ofList hd))
      id entry ?_
    rw [← (sameRest_merge w.engine (SubgraphBuilder.ofList descs)).entries]
    exact hentry
  | drop i =>
    simp only [World.apply]
    split
    · next held _ =>
      -- Dropping the handle only queues its ids; the drain is what removes.
      refine drain_impl (e := w.engine.dropHandle held.handle) fun id entry hentry => h id entry ?_
      unfold dropHandle at hentry
      split at hentry <;> exact hentry
    · exact h
  | activateSink id =>
    intro id' entry hentry
    refine hdrain id' entry ?_
    rw [← (sameRest_activate w.engine.drainPendingRemovals id).entries]
    exact hentry
  | setErrorStrategy id strategy => exact h
  | concurrencyGroup n => exact h
  | send id value =>
    intro id' entry hentry
    exact h id' entry ((Graph.entries_sendSource w.engine.graph id value) ▸ hentry)
  | complete task => exact h
  | runCycle o =>
    intro id entry hentry
    exact hdrain id entry
      ((sameFrame_runCycleImpl o false w.engine.drainPendingRemovals).entries ▸ hentry)
  | runCycleParallel o =>
    intro id entry hentry
    exact hdrain id entry
      ((sameFrame_runCycleImpl o true w.engine.drainPendingRemovals).entries ▸ hentry)

theorem World.impl_run {P : AnyNodeImpl V → List NodeId → Prop} {as : List (Action V)}
    (h : ∀ a ∈ as, a.Brings P) :
    ∀ id entry, (World.run as).engine.graph.entries.get id = some entry →
      P entry.nodeImpl entry.deps := by
  have hempty : ∀ id entry, (World.init : World V).engine.graph.entries.get id = some entry →
      P entry.nodeImpl entry.deps := fun id entry hentry => by
    have : (∅ : FinMap NodeId (NodeEntry V)).get id = some entry := hentry
    simp at this
  unfold World.run
  generalize World.init = w at hempty
  induction as generalizing w with
  | nil => exact hempty
  | cons a as ih =>
    exact ih (fun b hb => h b (List.mem_cons_of_mem _ hb)) _
      (World.impl_apply hempty (h a List.mem_cons_self))

theorem World.ok_run {as : List (Action V)} (h : Runs.AllSteps World.apply
    (fun w a => a.Supplied w ∧ a.isDrop = false) World.init as) : (World.run as).engine.Ok :=
  Runs.invariant (I := fun w => w.engine.Ok) (fun _ _ hw ha => World.ok_apply hw ha.1 ha.2) .new h

/-- An engine in order is regular when nothing depends on itself. -/
theorem Engine.Ok.regular {e : Engine V} (h : e.Ok) (hac : Dag.Acyclic (Engine.Reads e.graph)) :
    Engine.Regular e where
  wired := h.wired
  edges := .of_exact h.exact
  acyclic := by
    refine hac.mono fun u v huv => ?_
    by_cases hv : v ∈ e.active
    · rwa [h.wired.depsOf hv] at huv
    · rw [h.wired.depsOf_of_notMem hv] at huv
      exact absurd huv List.not_mem_nil

/-! ## Small graphs

Nodes to try things on. Values are numbers, and a node computes the sum of what it reads. What a
theorem about runs assumes of a registry can be checked on its nodes.
-/

namespace Engine

/-- A registry in which every dependency is registered supplies every node. -/
theorem supplied_of_closed {graph : Graph V}
    (h : ∀ v ∈ graph.entries.keys, ∀ u ∈ graph.depsOf v, u ∈ graph.entries.keys) (id : NodeId) :
    Supplied graph id := by
  intro v _ u hu
  by_cases hv : v ∈ graph.entries.keys
  · exact h v hv u hu
  · rw [Graph.depsOf, FinMap.notMem_keys.mp hv] at hu
    exact absurd hu List.not_mem_nil

/-- A registry whose nodes can be ranked above their dependencies is acyclic. -/
theorem acyclic_of_rank {graph : Graph V} (rank : NodeId → ℕ)
    (h : ∀ v ∈ graph.entries.keys, ∀ u ∈ graph.depsOf v, rank u < rank v) :
    Dag.Acyclic (Reads graph) := by
  refine Dag.Acyclic.of_rank rank fun u v huv => ?_
  by_cases hv : v ∈ graph.entries.keys
  · exact h v hv u huv
  · rw [Reads, Graph.depsOf, FinMap.notMem_keys.mp hv] at huv
    exact absurd huv List.not_mem_nil

end Engine

namespace Sample

/-- The `n`-th node. -/
def nodeId (n : ℕ) : NodeId := ⟨n, 0⟩

def sum : List NodeId → ValueStore ℕ → Option ℕ
  | [], _ => some 0
  | dep :: deps, store =>
    match store.getById dep, sum deps store with
    | some a, some b => some (a + b)
    | _, _ => none

def impl : AnyNodeImpl ℕ where
  activate _ := none
  compute := sum
  computeAsync := sum
  asyncPolicy := .latestWins
  concurrencyGroupId := none

def node (kind : NodeKind) (n : ℕ) (deps : List ℕ) : NodeDescriptor ℕ :=
  ⟨nodeId n, kind, deps.map nodeId, impl⟩

theorem pure_impl (deps : List NodeId) : impl.Pure deps where
  congr store store' h := by
    show sum deps store = sum deps store'
    induction deps with
    | nil => rfl
    | cons dep deps ih =>
      rw [sum, sum, h dep List.mem_cons_self, ih fun d hd => h d (List.mem_cons_of_mem _ hd)]
  missing store h := by
    show sum deps store = none
    induction deps with
    | nil => obtain ⟨d, hd, -⟩ := h; exact absurd hd List.not_mem_nil
    | cons dep deps ih =>
      obtain ⟨d, hd, hnone⟩ := h
      rw [sum]
      rcases List.mem_cons.mp hd with rfl | hd
      · rw [hnone]
      · rw [ih ⟨d, hd, hnone⟩]
        cases store.getById dep <;> rfl

theorem pure_node (kind : NodeKind) (n : ℕ) (deps : List ℕ) :
    (node kind n deps).nodeImpl.Pure (node kind n deps).deps :=
  pure_impl _

end Sample

end ReactiveGraph
