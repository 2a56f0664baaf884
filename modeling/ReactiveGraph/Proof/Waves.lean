import ReactiveGraph.Lib.Levels
import ReactiveGraph.Proof.Parallel
import ReactiveGraph.Proof.Representation

/-!
# Waves are levels

The wave scheduler runs what is ready, waits for all of it, and looks again. `Scheduler.waves` is
what it runs, wave by wave, read off its loop. In every state an engine can reach, with cycles or
lost edges as it may have them, two nodes of a wave never read one another, so the threads of a wave
write nothing that another reads; and a node is in the wave whose number is the length of the
longest chain of dirty nodes above it, so no schedule that respects the dependencies runs it
earlier.

**Which nodes are run is another question.** The waves are of those of the sorted synchronous dirty
nodes that the loop gets to; with a dirty async node above them some are left (`Parallel.lean`), and
of these nothing is said here but that they are not run. The chain above a node that is run is made
of nodes that are run, so its length is the same whether one counts all dirty nodes or only those.

**Two main results**, both over every run. `waves_are_levels` is about the schedule: what a wave is,
when a node is run, on which store, and in which order calls are made. `executors_visit_once`
compares the two executors: neither visits a node twice, or one that is not dirty, and the parallel
one visits none that the sequential one does not. A visit is one execution of a node and has one
record; a node under retry has its `compute` called several times within one visit.

No acyclicity is assumed. On a cycle of dirty nodes none is ever ready, and what hangs below it is
not run by either executor.
-/

namespace ReactiveGraph

open Engine

variable {V : Type*}

namespace Scheduler

variable {t : Topology} {dirty : Finset NodeId} {nodes : List NodeId}
  {entries : FinMap NodeId (NodeEntry V)} {st : WaveState V}

open Kahn (need used)

/-- The waves of the loop, in order: the ready nodes of each round, until nothing remains or nothing
is ready. -/
def waves (walks : ℕ → IterOrder) (entries : FinMap NodeId (NodeEntry V)) (topology : Topology) :
    ℕ → WaveState V → List (List NodeId)
  | 0, _ => []
  | n + 1, st =>
    if st.remaining = ∅ then []
    else if ready (walks n) st = [] then []
    else ready (walks n) st ::
      waves walks entries topology n (wave entries topology (ready (walks n) st) st)

variable (entries t) in
theorem loop_eq_foldl (walks : ℕ → IterOrder) (n : ℕ) (st : WaveState V) :
    loop walks entries t n st =
      (waves walks entries t n st).foldl (fun st r => wave entries t r st) st := by
  induction n generalizing st with
  | zero => rfl
  | succ n ih =>
    rw [loop, waves]
    split
    · rfl
    · split
      · rfl
      · rw [ih, List.foldl_cons]

/-- What the invariant says of a node that is not ready: something it waits for has not been run.
The count is positive, and the count is what is missing. -/
theorem Inv.used_lt {done : List NodeId} (h : Inv t dirty nodes st done) (walk : IterOrder)
    {v : NodeId} (hv : v ∈ nodes) (hdone : v ∉ done)
    (hready : v ∉ Scheduler.ready walk st) :
    used t.dependentsOf done v < need t.depsOf dirty v := by
  by_contra hle
  refine hready (List.mem_filter.mpr ⟨?_, ?_⟩)
  · exact (walk.mem_iter _ _).mpr ((h.remaining v).mpr ⟨hv, hdone⟩)
  · rw [h.readyCount v hv, Option.getD_some, decide_eq_true_eq]
    omega

/-- A ready node that waited before the last wave waited for something in it. This is what makes a
wave a level: the node has a dependency in the wave before. -/
theorem Inv.released {walk : IterOrder} {pre : List (List NodeId)} {w : List NodeId} {v : NodeId}
    (h : Inv t dirty nodes st (pre ++ [w]).flatten) (hle : t.AtMost)
    (hv : v ∈ nodes) (hready : v ∈ Scheduler.ready walk st)
    (hwait : used t.dependentsOf pre.flatten v < need t.depsOf dirty v) :
    ∃ u ∈ w, u ∈ t.depsOf v := by
  have hzero := (List.mem_filter.mp hready).2
  rw [h.readyCount v hv, Option.getD_some, decide_eq_true_eq] at hzero
  have hused : used t.dependentsOf (pre ++ [w]).flatten v =
      used t.dependentsOf pre.flatten v + used t.dependentsOf w v := by
    simp only [used, List.flatten_append, List.flatten_singleton, List.map_append, List.sum_append]
  have hpos : used t.dependentsOf w v ≠ 0 := by omega
  obtain ⟨k, hk, hk0⟩ : ∃ k ∈ w.map fun u => (t.dependentsOf u).count v, k ≠ 0 := by
    by_contra hnone
    refine hpos (List.sum_eq_zero fun k hk => ?_)
    by_contra hk0
    exact hnone ⟨k, hk, hk0⟩
  obtain ⟨u, hu, rfl⟩ := List.mem_map.mp hk
  exact ⟨u, hu, hle.mem_depsOf (List.count_pos_iff.mp (Nat.pos_of_ne_zero hk0))⟩

variable (entries) in
/-- **The waves are the levels** of the dirty graph. The induction carries the waves already run,
and that what is left was not ready before the last of them: so every node of the next wave reads
one of the last, and none of its own. -/
theorem levels_waves (hle : t.AtMost) (hdirty : ∀ v ∈ nodes, v ∈ dirty) (walks : ℕ → IterOrder)
    (n : ℕ) (ws : List (List NodeId)) (h : Inv t dirty nodes st ws.flatten)
    (hlevels : Dag.Levels t.depsOf (· ∈ dirty) ws)
    (hlast : ∀ pre w, ws = pre ++ [w] → ∀ v ∈ nodes, v ∉ ws.flatten →
      used t.dependentsOf pre.flatten v < need t.depsOf dirty v) :
    Dag.Levels t.depsOf (· ∈ dirty) (ws ++ waves walks entries t n st) ∧
      ∀ v ∈ (waves walks entries t n st).flatten, v ∈ nodes := by
  induction n generalizing st ws with
  | zero => simpa [waves] using hlevels
  | succ n ih =>
    rw [waves]
    split
    · simpa using hlevels
    · split
      · simpa using hlevels
      · next hne =>
        have hr := h.ready hle hdirty (walks n)
        have hsnoc : Dag.Levels t.depsOf (· ∈ dirty) (ws ++ [ready (walks n) st]) := by
          refine hlevels.snoc hne hr.nodup hr.fresh (fun v hv => hdirty v (hr.subset v hv)) hr.deps
            fun pre w heq v hv => ?_
          -- the node was held up when the wave before was chosen, so that wave has let it go
          have hwait := hlast pre w heq v (hr.subset v hv) (hr.fresh v hv)
          subst heq
          exact h.released hle (hr.subset v hv) hv hwait
        have hflat : (ws ++ [ready (walks n) st]).flatten = ws.flatten ++ ready (walks n) st := by
          rw [List.flatten_append, List.flatten_singleton]
        have hnext : Inv t dirty nodes (wave entries t (ready (walks n) st) st)
            (ws ++ [ready (walks n) st]).flatten := by
          rw [hflat]
          exact h.wave hr
        rw [List.append_cons]
        obtain ⟨hall, hsub⟩ := ih _ hnext hsnoc fun pre w heq v hv hnot => by
          obtain ⟨rfl, -⟩ := List.append_inj' heq rfl
          rw [hflat, List.mem_append, not_or] at hnot
          exact h.used_lt (walks n) hv hnot.1 hnot.2
        refine ⟨hall, fun v hv => ?_⟩
        rcases List.mem_append.mp hv with hv | hv
        · exact hr.subset v hv
        · exact hsub v hv

variable (entries t) in
/-- The calls of the loop are those of its waves, one wave after the other. -/
theorem nodeId_foldl_wave (ws : List (List NodeId)) (st : WaveState V) :
    ((ws.foldl (fun st r => wave entries t r st) st).effects.map Effect.nodeId) =
      st.effects.map Effect.nodeId ++ ws.flatten.filter (called entries) := by
  induction ws generalizing st with
  | nil => simp
  | cons w ws ih =>
    rw [List.foldl_cons, ih, effects_wave, List.map_append, nodeId_flatMap_executeSingle,
      List.flatten_cons, List.filter_append, List.append_assoc]

end Scheduler

namespace Engine

variable {e : Engine V}

/-! ## What the executors call -/

/-- The node is registered, and no source: the executors call it when they come to it. -/
def callsBack (e : Engine V) (id : NodeId) : Bool :=
  match e.graph.entries.get id with
  | some entry => entry.kind ≠ .source
  | none => false

theorem callsBack_iff {id : NodeId} : e.callsBack id ↔ e.HasCallback id := by
  unfold callsBack HasCallback
  cases e.graph.entries.get id with
  | none => simp
  | some entry => simp

theorem nodeId_effectsAlong (e : Engine V) (l : List NodeId) (store : ValueStore V) :
    (e.effectsAlong l store).map Effect.nodeId = l.filter e.callsBack := by
  induction l generalizing store with
  | nil => rfl
  | cons id l ih =>
    rw [effectsAlong, List.map_append, ih, nodeId_nodeEffects, List.filter_cons, callsBack]
    cases e.graph.entries.get id with
    | none => rfl
    | some entry => by_cases hk : entry.kind = .source <;> simp [hk]

/-- What the scheduler calls is called back, too, and so is what it leaves. -/
theorem callsBack_of_called {id : NodeId} (h : Scheduler.called e.graph.entries id = true) :
    e.callsBack id = true := by
  unfold Scheduler.called at h
  unfold callsBack
  cases hentry : e.graph.entries.get id with
  | none => simp [hentry] at h
  | some entry =>
    simp only [hentry, decide_eq_true_eq] at h
    rcases h with h | h <;> simp [h]

theorem callsBack_of_async {id : NodeId} (h : e.isSync id = false) : e.callsBack id = true := by
  obtain ⟨entry, hentry, hk⟩ := isSync_eq_false.mp h
  simp [callsBack, hentry, hk]

/-- The pass over the sorted nodes triggers every async node among them once. -/
theorem nodeId_collectSpawns (l : List NodeId) (p : Engine V × List (AsyncSpawn V)) :
    (l.foldl collectSpawns p).1.effects.map Effect.nodeId =
      p.1.effects.map Effect.nodeId ++ l.filter fun id => !p.1.isSync id := by
  induction l generalizing p with
  | nil => simp
  | cons id l ih =>
    have hentries : (collectSpawns p id).1.graph.entries = p.1.graph.entries :=
      (sameFrame_collectSpawns [id] p).1.entries
    have hsync : (collectSpawns p id).1.isSync = p.1.isSync := by
      funext v
      simp only [isSync, hentries]
    have hhead : (collectSpawns p id).1.effects.map Effect.nodeId =
        p.1.effects.map Effect.nodeId ++ if p.1.isSync id then [] else [id] := by
      unfold collectSpawns isSync
      cases hentry : p.1.graph.entries.get id with
      | none => simp
      | some entry =>
        by_cases hk : entry.kind = .asyncCompute
        · simp only [hk, if_true, trigger]
          split <;> simp [Effect.nodeId, record]
        · simp [hk]
    rw [List.foldl_cons, ih, hsync, hhead, List.append_assoc, List.filter_cons]
    cases p.1.isSync id <;> rfl

/-- **A parallel cycle** calls what the scheduler calls, and then triggers the async nodes in their
order. -/
theorem nodeId_runCycleImpl_parallel (o : CycleOrder) (e : Engine V) :
    (runCycleImpl o true e).effects.map Effect.nodeId = e.effects.map Effect.nodeId ++
      (Scheduler.executeParallel o.waves e.graph.entries e.received.graph.valueStore e.topology
        ((e.sortedOf o).filter e.isSync) (e.topology.dirtySet o.sources e.updated)).2.map
          Effect.nodeId ++ (e.sortedOf o).filter fun id => !e.isSync id := by
  rw [runCycleImpl_eq]
  split
  · next h =>
    rw [(sortedOf_of_empty h).2, List.filter_nil, List.filter_nil, List.append_nil]
    exact (List.append_nil _).symm
  · rw [(propagate_parallel o e.received e.updated).2, executeParallelWithAsync_eq,
      nodeId_collectSpawns]
    exact congrArg (· ++ _) List.map_append

/-! ## The waves of a cycle -/

/-- What a parallel cycle starts the wave loop with. -/
def waveStart (o : CycleOrder) (e : Engine V) : Scheduler.WaveState V :=
  ⟨e.received.graph.valueStore, Scheduler.readyCounts e.topology ((e.sortedOf o).filter e.isSync)
    (e.topology.dirtySet o.sources e.updated), ((e.sortedOf o).filter e.isSync).toFinset, []⟩

/-- The waves of a parallel cycle. -/
def wavesOf (o : CycleOrder) (e : Engine V) : List (List NodeId) :=
  Scheduler.waves o.waves e.graph.entries e.topology ((e.sortedOf o).filter e.isSync).length
    (e.waveStart o)

/-- The engine has got from `e` to `e'` by the waves `ws`. The clauses say which nodes these are,
that a wave is free of conflicts, where a node stands, and that the store and the calls are those of
running the waves in order. -/
structure ByWaves (o : CycleOrder) (e e' : Engine V) (ws : List (List NodeId)) : Prop where
  nodup : ws.flatten.Nodup
  /-- Only dirty nodes are run that are sorted, and no async one. -/
  dirty : ∀ v ∈ ws.flatten, e.Dirty v ∧ v ∈ e.sortedOf o ∧ e.isSync v
  /-- No thread of a wave reads what another writes. -/
  apart : ∀ w ∈ ws, ∀ u ∈ w, ∀ v ∈ w, u ∉ e.graph.depsOf v
  /-- A node is in the wave whose number is the length of the longest chain of dirty nodes above. -/
  depth : ∀ pre w post, ws = pre ++ w :: post → ∀ v ∈ w, ∀ n,
    Dag.HasChain e.graph.depsOf e.Dirty n v ↔ n ≤ pre.length
  /-- Each wave is run on the store the last one left. -/
  store : e'.graph.valueStore =
    (ws.foldl (fun st r => Scheduler.wave e.graph.entries e.topology r st) (e.waveStart o)).store
  /-- The calls are those of the nodes of the waves, and then the async ones are triggered. -/
  calls : e'.effects.map Effect.nodeId = e.effects.map Effect.nodeId ++
    ws.flatten.filter (Scheduler.called e.graph.entries) ++
      (e.sortedOf o).filter fun id => !e.isSync id

theorem Represented.byWaves (h : e.Represented) (o : CycleOrder) :
    ByWaves o e (Engine.runCycleImpl o true e) (e.wavesOf o) := by
  have hsync : ∀ v ∈ (e.sortedOf o).filter e.isSync,
      e.Dirty v ∧ v ∈ e.sortedOf o ∧ e.isSync v := fun v hv => by
    obtain ⟨hv, hs⟩ := List.mem_filter.mp hv
    exact ⟨mem_dirty.mp ((Topology.sorted_topoSort h.edges o.dirty _).subset v hv), hv, hs⟩
  obtain ⟨hlevels, hsub⟩ := Scheduler.levels_waves e.graph.entries h.edges
    (fun v hv => mem_dirty.mpr (hsync v hv).1) o.waves ((e.sortedOf o).filter e.isSync).length []
    (Scheduler.Inv.start e.topology (e.topology.dirtySet o.sources e.updated)
      ((e.sortedOf o).filter e.isSync) e.received.graph.valueStore) .nil (by simp)
  rw [List.nil_append] at hlevels
  have hdirty : (· ∈ e.topology.dirtySet o.sources e.updated) = e.Dirty :=
    funext fun v => propext mem_dirty
  -- dirty nodes are active, and of these registry and topology agree
  have hactive : ∀ v ∈ (e.wavesOf o).flatten, e.graph.depsOf v = e.topology.depsOf v :=
    fun v hv => (h.wired.depsOf (h.active_of_dirty (hsync v (hsub v hv)).1)).symm
  rw [hdirty] at hlevels
  replace hlevels := hlevels.congr hactive
  obtain ⟨-, -, hstore, -⟩ := runCycleImpl_parallel o e
  have hloop := Scheduler.loop_eq_foldl e.topology e.graph.entries o.waves
    ((e.sortedOf o).filter e.isSync).length (e.waveStart o)
  refine ⟨hlevels.nodup, fun v hv => hsync v (hsub v hv),
    fun w hw u hu v hv => hlevels.independent hw hu hv,
    fun pre w post heq v hv => hlevels.hasChain_iff heq hv, ?_, ?_⟩
  · rw [hstore]
    exact congrArg Scheduler.WaveState.store hloop
  · have hcalls := Scheduler.nodeId_foldl_wave e.topology e.graph.entries
      (e.wavesOf o) (e.waveStart o)
    rw [wavesOf, ← hloop] at hcalls
    rw [nodeId_runCycleImpl_parallel]
    exact congrArg (fun l => _ ++ l ++ _) hcalls

/-- A dirty node reads a dirty node. A loop of these is what the sort leaves out, with everything
below it. -/
def DirtyEdge (o : CycleOrder) (e : Engine V) : NodeId → NodeId → Prop :=
  Dag.Within e.graph.depsOf (e.topology.dirtySet o.sources e.updated)

/-- What a sequential cycle calls, in order: dirty nodes, each after the dirty nodes it reads. Where
every edge is listed alike both ways, only what a loop leads to is missing. -/
structure Sequence (o : CycleOrder) (e : Engine V) (seq : List NodeId) : Prop where
  dirty : ∀ v ∈ seq, e.Dirty v ∧ e.HasCallback v
  ordered : Dag.Ordered e.graph.depsOf (fun u => e.Dirty u ∧ e.HasCallback u) seq
  mem_iff : Exact e.topology → ∀ v, v ∈ seq ↔ (e.Dirty v ∧ e.HasCallback v) ∧
    ¬ ∃ c, Relation.TransGen (e.DirtyEdge o) c c ∧ Relation.ReflTransGen (e.DirtyEdge o) c v

theorem Represented.sequence (h : e.Represented) (o : CycleOrder) :
    e.Sequence o ((e.sortedOf o).filter e.callsBack) := by
  have hsorted := Topology.sorted_topoSort h.edges o.dirty
    (e.topology.dirtySet o.sources e.updated)
  have hdirty : ∀ v ∈ e.sortedOf o, e.Dirty v := fun v hv => mem_dirty.mp (hsorted.subset v hv)
  have hdeps : ∀ v, e.Dirty v → e.graph.depsOf v = e.topology.depsOf v :=
    fun v hv => (h.wired.depsOf (h.active_of_dirty hv)).symm
  have hwithin : e.DirtyEdge o =
      Dag.Within e.topology.depsOf (e.topology.dirtySet o.sources e.updated) := by
    funext u v
    refine propext (and_congr_left fun huv => ?_)
    rw [hdeps v (mem_dirty.mp huv.2)]
  refine ⟨fun v hv => ?_, ?_, fun hex v => ?_⟩
  · obtain ⟨hv, hc⟩ := List.mem_filter.mp hv
    exact ⟨hdirty v hv, callsBack_iff.mp hc⟩
  · refine (hsorted.ordered.filter e.callsBack).mono (fun v hv u hu => ?_) fun u hu => ?_
    · rwa [← hdeps v (hdirty v (List.mem_filter.mp hv).1)]
    · exact ⟨mem_dirty.mpr hu.1, callsBack_iff.mpr hu.2⟩
  · rw [List.mem_filter, callsBack_iff, hwithin, and_right_comm, ← mem_dirty (o := o)]
    refine and_congr_left' (hsorted.mem_iff_no_cycle fun u _ v _ => hex u v)

end Engine

/-- **Waves are levels**, in every state of every run, whatever order the engine's hash tables give.

What it rests on is that in every reachable state an edge is listed at most as often among the
dependents as among the dependencies, so that no count reaches zero early. Nothing is said of the
nodes that the loop leaves when it stops with none ready. -/
theorem waves_are_levels (calls : List (Call V)) :
    Runs.Always Session.apply (fun s => ∀ o, ByWaves o s.engine.drainPendingRemovals
      (s.engine.runCycleParallel o) (s.engine.drainPendingRemovals.wavesOf o)) Session.init calls :=
  Runs.always_of_step (I := fun s : Session V => s.engine.Represented)
    (fun _ c h => Session.represented_apply h c)
    (fun _ h o => (Represented.stable.drainPendingRemovals h).byWaves o) Represented.new

/-- **No executor visits a node twice**, or one that is not dirty, in any state of any run; the
parallel one visits no node that the sequential one does not, and that one visits a node after the
dirty nodes it reads, and leaves out, of the nodes it could call, those that a loop leads to.

The lists are of the records of the cycle, one for each visit. How often `compute` is called in the
course of a visit is in the record, and bounded by the strategy (`ErrorStrategies.lean`). -/
theorem executors_visit_once (calls : List (Call V)) :
    Runs.Always Session.apply (fun s => ∀ o, ∃ seq par : List NodeId,
      (s.engine.runCycle o).effects.map Effect.nodeId =
        s.engine.drainPendingRemovals.effects.map Effect.nodeId ++ seq ∧
      (s.engine.runCycleParallel o).effects.map Effect.nodeId =
        s.engine.drainPendingRemovals.effects.map Effect.nodeId ++ par ∧
      seq.Nodup ∧ par.Nodup ∧ par ⊆ seq ∧ s.engine.drainPendingRemovals.Sequence o seq)
      Session.init calls := by
  refine Runs.always_of_step (I := fun s : Session V => s.engine.Represented)
    (fun _ c h => Session.represented_apply h c) (fun s h o => ?_) Represented.new
  replace h := Represented.stable.drainPendingRemovals h
  have hnodup : (s.engine.drainPendingRemovals.sortedOf o).Nodup :=
    (Topology.sorted_topoSort h.edges o.dirty _).nodup
  have hwaves := h.byWaves o
  refine ⟨_, _, ?_, hwaves.calls.trans (List.append_assoc _ _ _), hnodup.filter _, ?_, ?_,
    h.sequence o⟩
  · have heffects := (runCycleImpl_sequential o s.engine.drainPendingRemovals).2
    rw [(sameFrame_received _).along.1] at heffects
    exact (congrArg (List.map Effect.nodeId) heffects).trans
      (by rw [List.map_append, nodeId_effectsAlong])
  · refine (hwaves.nodup.filter _).append (hnodup.filter _) fun v hv hv' => ?_
    have hsync := (hwaves.dirty v (List.mem_filter.mp hv).1).2.2
    simp [hsync] at hv'
  · intro v hv
    rcases List.mem_append.mp hv with hv | hv
    · obtain ⟨hv, hc⟩ := List.mem_filter.mp hv
      exact List.mem_filter.mpr ⟨(hwaves.dirty v hv).2.1, callsBack_of_called hc⟩
    · obtain ⟨hv, hs⟩ := List.mem_filter.mp hv
      exact List.mem_filter.mpr ⟨hv, callsBack_of_async (by simpa using hs)⟩

end ReactiveGraph
