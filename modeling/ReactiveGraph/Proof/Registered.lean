import ReactiveGraph.Proof.Arrival
import ReactiveGraph.Proof.Callbacks
import ReactiveGraph.Proof.Coherence
import ReactiveGraph.Proof.Linearization

/-!
# What can be registered with a started engine

A started engine is out of reach: its graph gets all its nodes from subgraphs that clients have had
merged. So what is true of the nodes of every subgraph is true of every node that is ever registered,
however the threads have interleaved (`registers_run`). The proof goes by the history of the commands
(`Linear`): what is registered is what the commands handled so far make of a new engine.

There is one property that every subgraph has. `SubgraphBuilder` offers sources, compute nodes and
sinks; async nodes are built on a graph, by a program that calls its engine itself. The model's
`Subgraph` does not say so, it takes the descriptors it is given, and what is proved of the threads
holds of subgraphs with async nodes as well. For those that can be built the async manager of a
started engine is never used (`asyncManager_run`): no task runs, none owes a notification, no result
and no future waits anywhere. Two moves of the model, the completion of a task and its notification,
then change nothing. It is also why the threads have no move for a task in its last poll, which goes
on to its sends after an abort and is modelled where there are tasks (`PolledSystem`,
`TaskSession`).
-/

namespace ReactiveGraph

open Engine

variable {V : Type*} {P : NodeDescriptor V → Prop}

/-- What the command registers has `P`. Only a merge registers. -/
def Command.Brings (P : NodeDescriptor V → Prop) (c : Command V) : Prop :=
  ∀ desc ∈ c.descriptors, P desc

/-- What the move has merged has `P`. -/
def Move.Brings (P : NodeDescriptor V → Prop) : Move V → Prop
  | .merge subgraph _ => ∀ desc ∈ subgraph.descriptors, P desc
  | _ => True

namespace EventLoop

/-- A command registers nothing but the nodes of its subgraph. -/
theorem registers_handle {s : Iteration V} (h : Registers P s.engine.graph.entries)
    (hp : s.engine.pendingRemovals = []) {c : Command V} (hc : c.Brings P) :
    Registers P (handle s c).engine.graph.entries := by
  cases c with
  | merge subgraph reply =>
    have hentries : (handle s (.merge subgraph reply)).engine.graph.entries =
        (s.engine.registerAll subgraph.descriptors).graph.entries :=
      (grown_activateSinks (e := s.engine.registerAll subgraph.descriptors) subgraph.nodeIds
        hp).1.entries
    rw [hentries]
    exact h.registerAll hc
  | remove nodeIds => exact h.shrinks (shrinks_release s.engine nodeIds)
  | sourceUpdate | asyncComplete | sourceReady | shutdown => exact h

theorem registers_handleAll {commands : List (Command V)} (h : ∀ c ∈ commands, c.Brings P) :
    Registers P (handleAll start commands).engine.graph.entries ∧
      (handleAll start commands).engine.pendingRemovals = [] := by
  induction commands using List.reverseRecOn with
  | nil => exact ⟨fun id entry hentry => absurd hentry (by simp [handleAll, start, Graph.new]), rfl⟩
  | append_singleton commands c ih =>
    obtain ⟨hreg, hpending⟩ := ih fun c hc => h c (List.mem_append_left _ hc)
    rw [handleAll_snoc]
    exact ⟨registers_handle hreg hpending (h c (by simp)), pendingRemovals_handle hpending c⟩

end EventLoop

namespace Threads

variable {t : Threads V} {ms : List (Move V)}

theorem brings_posts {m : Move V} (h : m.Brings P) : ∀ c ∈ t.posts m, c.Brings P := by
  intro c hc desc hdesc
  cases c with
  | merge subgraph reply =>
    -- only a merge posts a merge
    cases m with
    | merge =>
      obtain ⟨rfl, rfl⟩ := Command.merge.inj (List.mem_singleton.mp hc)
      exact h desc hdesc
    | bridge | notify | dropHandle =>
      rw [posts] at hc
      split at hc <;> simp at hc
    | updateSource | shutdown => exact absurd (List.mem_singleton.mp hc) (by simp)
    | loop | complete | send => exact absurd hc List.not_mem_nil
  | remove | sourceUpdate | asyncComplete | sourceReady | shutdown =>
    exact absurd hdesc List.not_mem_nil

/-- **What is registered is what clients have merged**, however the threads have interleaved. By the
history of the commands: the engine's registry is what the handled ones make of a new engine, one
after the other. -/
theorem registers_run (h : ∀ m ∈ ms, m.Brings P) :
    Registers P (run ms).engine.graph.entries := by
  have hstep : ∀ (t : Threads V) (m : Move V),
      (∃ posted handled, t.Linear posted handled ∧ ∀ c ∈ posted, c.Brings P) → m.Brings P →
        ∃ posted handled, (t.apply m).Linear posted handled ∧ ∀ c ∈ posted, c.Brings P := by
    rintro t m ⟨posted, handled, hlin, hposted⟩ hm
    refine ⟨_, _, hlin.apply m, fun c hc => ?_⟩
    rcases List.mem_append.mp hc with hc | hc
    · exact hposted c hc
    · exact brings_posts hm c hc
  obtain ⟨posted, handled, hlin, hposted⟩ := Runs.invariant hstep
    ⟨[], [], .init, fun _ hc => absurd hc List.not_mem_nil⟩ (Runs.AllSteps.of_forall h)
  have hhandled : ∀ c ∈ handled, c.Brings P := fun c hc => hposted c (by simp [hlin.fifo, hc])
  have hentries : (run ms).engine.graph.entries =
      (EventLoop.handleAll EventLoop.start handled).engine.graph.entries := hlin.wiring.entries
  rw [hentries]
  exact (EventLoop.registers_handleAll hhandled).1

/-! ## No async nodes, no tasks -/

/-- A kind of node that a `SubgraphBuilder` offers. -/
def Offered (desc : NodeDescriptor V) : Prop := desc.kind ≠ .asyncCompute

theorem nodeSpawns_eq_nil {e : Engine V} (h : Registers Offered e.graph.entries) (id : NodeId)
    (store : ValueStore V) : e.nodeSpawns id store = [] := by
  unfold nodeSpawns
  cases hentry : e.graph.entries.get id with
  | none => rfl
  | some entry => exact if_neg (h id entry hentry)

theorem spawnsAlong_eq_nil {e : Engine V} (h : Registers Offered e.graph.entries)
    (l : List NodeId) (store : ValueStore V) : e.spawnsAlong l store = [] := by
  induction l generalizing store with
  | nil => rfl
  | cons id l ih => rw [spawnsAlong, nodeSpawns_eq_nil h, ih, List.append_nil]

/-- The async manager is as the loop has set it up, and the loop is not about to use it. Kept by
every move when no registered node is async. -/
structure Unused (t : Threads V) : Prop where
  manager : t.engine.asyncManager = AsyncManager.new.setNotifier
  spawns : t.loop.spawns = []

/-- The cycle finds no async node among the dirty ones. -/
theorem Unused.execute (h : t.Unused) (hreg : Registers Offered t.engine.graph.entries)
    (o : CycleOrder) (updated : List NodeId) (results : List (NodeId × V))
    (shouldShutdown : Bool) : (t.execute o updated results shouldShutdown).Unused := by
  obtain ⟨-, ⟨-, -, hm⟩, -, -⟩ := execute_frame t o updated results shouldShutdown
  refine ⟨hm.trans h.manager, ?_⟩
  have hstored : Registers Offered
      (t.engine.setStore (receive t.engine.graph.valueStore results)).graph.entries := hreg
  unfold Threads.execute
  simp only
  split
  · exact (LoopPc.nextPc_parts shouldShutdown).2.2.2
  · exact (executeSequentialWithAsync_eq _ _).2.trans (spawnsAlong_eq_nil hstored _ _)

theorem Unused.loopStep (h : t.Unused) (hawake : t.Awake)
    (hreg : Registers Offered t.engine.graph.entries) (o : CycleOrder) :
    (t.loopStep o).Unused := by
  unfold Threads.loopStep
  cases hpc : t.loop with
  | blocked =>
    cases t.commands with
    | nil => exact h
    | cons c commands => exact ⟨h.manager, rfl⟩
  | collecting collected => cases t.commands <;> exact ⟨h.manager, rfl⟩
  | processing commands hasUpdates shouldShutdown =>
    cases commands with
    | cons c commands =>
      obtain ⟨-, -, hm, -⟩ := EventLoop.handle_channels
        ⟨t.engine, [], hasUpdates, shouldShutdown⟩ (by rw [hawake.bridge]; rfl) c
      exact ⟨hm.trans h.manager, rfl⟩
    | nil =>
      cases hasUpdates with
      | true => exact ⟨(shrinks_drainPendingRemovals t.engine).asyncManager.trans h.manager, rfl⟩
      | false => exact ⟨h.manager, (LoopPc.nextPc_parts shouldShutdown).2.2.2⟩
  | sending outbox replies commands hasUpdates shouldShutdown =>
    cases outbox <;> exact ⟨h.manager, rfl⟩
  | drainingSources updated shouldShutdown =>
    cases t.engine.graph.sourceRx <;> exact ⟨h.manager, rfl⟩
  | drainingResults updated results shouldShutdown =>
    have hrx : t.engine.asyncManager.resultRx = [] := by rw [h.manager]; rfl
    simp only [hrx]
    exact ⟨h.manager, rfl⟩
  | completing completed updated results shouldShutdown =>
    cases completed with
    | cons id completed =>
      refine ⟨?_, rfl⟩
      -- a manager that no node was ever given to has no entry for any
      have hnone : t.engine.asyncManager.nodeStates.get id = none := by rw [h.manager]; rfl
      exact (AsyncManager.processCompletion_of_none hnone).trans h.manager
    | nil => exact h.execute hreg o updated results shouldShutdown
  | spawning spawns metrics shouldShutdown =>
    obtain rfl : spawns = [] := by
      have hnil := h.spawns
      rwa [hpc] at hnil
    exact ⟨h.manager, (LoopPc.nextPc_parts shouldShutdown).2.2.2⟩
  | stopped => exact h

theorem Unused.apply (h : t.Unused) (hawake : t.Awake)
    (hreg : Registers Offered t.engine.graph.entries) (m : Move V) : (t.apply m).Unused := by
  cases m with
  | loop o => exact h.loopStep hawake hreg o
  | bridge =>
    rw [Threads.apply, bridgeStep]
    split
    · split <;> exact ⟨h.manager, h.spawns⟩
    · exact ⟨h.manager, h.spawns⟩
    · exact ⟨h.manager, h.spawns⟩
  | complete id =>
    refine ⟨?_, h.spawns⟩
    -- there is no task to complete
    obtain hsame | ⟨task, hrunning, -⟩ := t.engine.asyncManager.complete_cases id
    · exact hsame.trans h.manager
    · rw [h.manager] at hrunning
      exact absurd hrunning List.not_mem_nil
  | notify =>
    have hnone : ¬ 0 < t.engine.asyncManager.runtime.notifying := by rw [h.manager]; exact lt_irrefl 0
    rw [Threads.apply, notifyStep]
    simp only [if_neg hnone]
    exact h
  | dropHandle nodeIds =>
    rw [Threads.apply]
    split <;> exact ⟨h.manager, h.spawns⟩
  | send | updateSource | merge | shutdown => exact ⟨h.manager, h.spawns⟩

/-- **The async manager of a started engine is never used**, in any interleaving in which clients
merge what a `SubgraphBuilder` can build. It is equal to the manager the loop began with: no group
either, since a client of a handle cannot ask for one. -/
theorem asyncManager_run (h : ∀ m ∈ ms, m.Brings Offered) :
    (run ms).engine.asyncManager = AsyncManager.new.setNotifier ∧ (run ms).loop.spawns = [] := by
  have hunused : (run ms).Awake ∧ (run ms).Unused := by
    induction ms using List.reverseRecOn with
    | nil => exact ⟨.init, rfl, rfl⟩
    | append_singleton ms m ih =>
      have hms : ∀ m ∈ ms, m.Brings Offered := fun m hm => h m (List.mem_append_left _ hm)
      obtain ⟨hawake, hunused⟩ := ih hms
      have hrun : run (ms ++ [m]) = (run ms).apply m := Runs.run_append apply init ms [m]
      rw [hrun]
      exact ⟨hawake.apply m, hunused.apply hawake (registers_run hms) m⟩
  exact ⟨hunused.2.manager, hunused.2.spawns⟩

/-- Its tasks have no moves, then: the two that the model has for tasks leave such an engine as it
is. -/
theorem tasks_never_move (h : ∀ m ∈ ms, m.Brings Offered) :
    (∀ id, (run ms).apply (.complete id) = run ms) ∧ (run ms).apply .notify = run ms := by
  have hm := (asyncManager_run h).1
  refine ⟨fun id => ?_, ?_⟩
  · have hfind : (run ms).engine.asyncManager.runtime.find id = none := by rw [hm]; rfl
    rw [Threads.apply, completeStep, AsyncManager.complete, hfind, Option.elim_none,
      Multiset.zero_add]
  · have hnone : ¬ 0 < (run ms).engine.asyncManager.runtime.notifying := by
      rw [hm]
      exact lt_irrefl 0
    rw [Threads.apply, notifyStep]
    exact if_neg hnone

end Threads

end ReactiveGraph
