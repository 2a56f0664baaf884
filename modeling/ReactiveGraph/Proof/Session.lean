import ReactiveGraph.Model.Session
import ReactiveGraph.Proof.Cycle
import ReactiveGraph.Proof.Merge

/-!
# What a call can do to an engine

Every call is made of few things: a count is lowered or a node removed, a node is registered, a node
is marked active or finished, or something is written that is no part of the registry, the topology,
the guards or the store. `Engine.Stable P` says that `P` survives each of them, and then it survives
every call but the cycles, about which each theorem has its own argument
(`Session.engine_apply_induction`).

Clients that drop and drain at once, and the event loop, make these calls and no others
(`World.toSession_apply`, `Session.exists_calls_iterate`).

**So there is one induction for all.** An invariant of the engine is shown for the six steps and for
cycles, and then holds in every state of every session. By the two embeddings it holds of an engine
whose client drops and drains in one step, and of the engine of an event loop after any batches of
commands, and need not be proved again for either.

The six steps are those of the rules for deactivation and activation, registration of one node, and
a step that leaves everything concerned as it is. In each of them the property is asked of the state
before, together with what is known there: that the node is registered with this entry, that its
count is what it is, that it is active or not. A property that relates two engines, or that a call
may break and mend again, is not of this kind and has its own proof.
-/

namespace ReactiveGraph

variable {V : Type*}

namespace Engine

variable {e e' : Engine V} {P : Engine V → Prop}

/-- The two engines differ in nothing that says what a node is, where it stands, what it holds.
Channels, tasks, strategies, queues of removals and effects may differ. -/
structure SameNodes (e e' : Engine V) : Prop where
  entries : e'.graph.entries = e.graph.entries
  store : e'.graph.valueStore = e.graph.valueStore
  topology : e'.topology = e.topology
  active : e'.active = e.active
  guards : e'.guards = e.guards

theorem sameNodes_dropHandle (e : Engine V) (handle : SubgraphHandle) :
    SameNodes e (e.dropHandle handle) := by
  unfold dropHandle
  split <;> exact ⟨rfl, rfl, rfl, rfl, rfl⟩

theorem sameNodes_send (e : Engine V) (id : NodeId) (value : V) : SameNodes e (e.send id value) :=
  ⟨Graph.entries_sendSource e.graph id value, Graph.valueStore_sendSource e.graph id value, rfl,
    rfl, rfl⟩

theorem sameNodes_forward (e : Engine V) : SameNodes e e.forward := by
  unfold forward
  split <;> exact ⟨rfl, rfl, rfl, rfl, rfl⟩

/-- `P` survives everything a call is made of, cycles apart. Most invariants are shown stable by six
short lemmas. -/
structure Stable (P : Engine V → Prop) : Prop where
  lower : ∀ e id entry, P e → e.graph.entries.get id = some entry → 0 < entry.refCount - 1 →
    P (e.setEntries (e.graph.entries.insert id { entry with refCount := entry.refCount - 1 }))
  remove : ∀ e id entry, P e → e.graph.entries.get id = some entry → ¬ 0 < entry.refCount - 1 →
    P (e.removeEntry id entry.kind)
  mark : ∀ e id entry, P e → id ∉ e.active → e.graph.entries.get id = some entry →
    P (e.markActive id entry.deps)
  finish : ∀ e id entry, P e → id ∈ e.active → e.graph.entries.get id = some entry →
    P (e.finishActivation id entry.kind)
  register : ∀ (e : Engine V) id kind deps nodeImpl, P e →
    P { e with graph := (e.graph.registerNode id kind deps nodeImpl).1 }
  other : ∀ e e', P e → SameNodes e e' → P e'

namespace Stable

variable (h : Stable P)

include h

theorem release (nodeIds : List NodeId) (he : P e) : P (e.release nodeIds) :=
  release_induction h.lower h.remove nodeIds he

theorem deactivate (id : NodeId) (he : P e) : P (e.deactivate id) :=
  deactivateNode_induction h.lower h.remove _ id he

theorem drainPendingRemovals (he : P e) : P e.drainPendingRemovals :=
  drainPendingRemovals_induction h.lower h.remove (h.other e _ he ⟨rfl, rfl, rfl, rfl, rfl⟩)

theorem registerAll (descs : List (NodeDescriptor V)) (he : P e) : P (e.registerAll descs) := by
  induction descs generalizing e with
  | nil => exact he
  | cons d descs ih => exact ih (h.register e d.id d.kind d.deps d.nodeImpl he)

theorem activateSink (id : NodeId) (he : P e) : P (e.activateSink id) :=
  (activateNode_induction h.mark h.finish _ id (h.drainPendingRemovals he)).1

theorem activateSinks (ids : List NodeId) (he : P e) : P (ids.foldl activateIfSink e) := by
  induction ids generalizing e with
  | nil => exact he
  | cons id ids ih =>
    refine ih ?_
    unfold activateIfSink
    split
    · split
      · exact h.activateSink id he
      · exact he
    · exact he

theorem merge (s : Subgraph V) (he : P e) : P (e.merge s).1 :=
  h.activateSinks s.nodeIds (h.registerAll s.descriptors (h.drainPendingRemovals he))

end Stable

end Engine

open Engine

/-- The walks of a call that is a cycle, and whether it is a parallel one. -/
def Call.cycle : Call V → Option (CycleOrder × Bool)
  | .runCycle o => some (o, false)
  | .runCycleParallel o => some (o, true)
  | _ => none

namespace Session

theorem engine_apply_cycle {s : Session V} {c : Call V} {o : CycleOrder} {parallel : Bool}
    (h : c.cycle = some (o, parallel)) :
    (s.apply c).engine = runCycleImpl o parallel s.engine.drainPendingRemovals := by
  cases c with
  | runCycle o' =>
    obtain ⟨rfl, rfl⟩ := Prod.mk.inj (Option.some.inj h)
    rfl
  | runCycleParallel o' =>
    obtain ⟨rfl, rfl⟩ := Prod.mk.inj (Option.some.inj h)
    rfl
  | _ => exact absurd h (by simp [Call.cycle])

/-- **The rule for calls.** A call is taken apart into the steps of `Stable`, whatever its loops and
recursions do; a cycle is what is left, after the removals. -/
theorem engine_apply_induction {P : Engine V → Prop} (hP : Stable P) {s : Session V} (c : Call V)
    (h : P s.engine)
    (cycle : ∀ o parallel, c.cycle = some (o, parallel) → P s.engine.drainPendingRemovals →
      P (runCycleImpl o parallel s.engine.drainPendingRemovals)) : P (s.apply c).engine := by
  -- Most calls leave the nodes and everything about them as they are.
  have hsame : ∀ e', SameNodes s.engine e' → P e' := fun e' => hP.other _ e' h
  have hdrain := hP.drainPendingRemovals h
  cases c with
  | graph => exact hdrain
  | register desc => exact hP.registerAll [desc] h
  | merge descs => exact hP.merge (SubgraphBuilder.ofList descs) h
  | dropHandle i =>
    simp only [apply]
    split
    · next handle _ => exact hsame _ (sameNodes_dropHandle s.engine handle)
    · exact h
  | dropRemote i =>
    simp only [apply]
    split <;> exact h
  | remove =>
    simp only [apply]
    split
    · next nodeIds _ _ => exact hP.release nodeIds h
    · exact h
  | deactivateNode id => exact hP.deactivate id h
  | activateSink id => exact hP.activateSink id h
  | setErrorStrategy id strategy => exact hsame _ ⟨rfl, rfl, rfl, rfl, rfl⟩
  | concurrencyGroup n => exact hsame _ ⟨rfl, rfl, rfl, rfl, rfl⟩
  | interpose => exact hsame _ ⟨rfl, rfl, rfl, rfl, rfl⟩
  | send id value => exact hsame _ (sameNodes_send s.engine id value)
  | update id value => exact hsame _ ⟨rfl, rfl, rfl, rfl, rfl⟩
  | forward => exact hsame _ (sameNodes_forward s.engine)
  | complete task => exact hsame _ ⟨rfl, rfl, rfl, rfl, rfl⟩
  | runCycle o => exact cycle o false rfl hdrain
  | runCycleParallel o => exact cycle o true rfl hdrain

end Session

/-! ## Clients -/

/-- A client's action as calls. -/
def Action.calls : Action V → List (Call V)
  | .register desc => [.graph, .register desc]
  | .merge descs => [.merge descs]
  | .drop i => [.dropHandle i, .graph]
  | .activateSink id => [.activateSink id]
  | .setErrorStrategy id strategy => [.setErrorStrategy id strategy]
  | .concurrencyGroup n => [.concurrencyGroup n]
  | .send id value => [.send id value]
  | .complete task => [.complete task]
  | .runCycle o => [.runCycle o]
  | .runCycleParallel o => [.runCycleParallel o]

/-- What a client and its engine are, call by call. -/
def World.toSession (w : World V) : Session V := ⟨w.engine, w.handles.map Holding.handle, []⟩

/-- **A client's action is a run of calls**, when there is nothing to drain before it. In a `World`
there never is, since every drop drains. -/
theorem World.toSession_apply {w : World V} (hp : w.engine.pendingRemovals = []) (a : Action V) :
    (w.apply a).toSession = Runs.run Session.apply w.toSession a.calls := by
  cases a with
  | merge descs =>
    simp only [World.apply, Action.calls, Runs.run_cons, Runs.run_nil, Session.apply,
      World.toSession, List.map_append, List.map_singleton]
  | drop i =>
    simp only [World.apply, Action.calls, Runs.run_cons, Runs.run_nil, Session.apply,
      World.toSession, List.getElem?_map]
    cases w.handles[i]? with
    | none =>
      show _ = (⟨w.engine.drainPendingRemovals, _, _⟩ : Session V)
      rw [drainPendingRemovals_of_nil hp]
      rfl
    | some held => simp only [Option.map_some, List.eraseIdx_map]
  | _ => rfl

/-! ## The event loop -/

/-- The subgraph of a `Merge` command comes out of a builder, as it does in the source, where
nothing else makes one. -/
def Command.FromBuilder : Command V → Prop
  | .merge subgraph _ => ∃ descs, subgraph = SubgraphBuilder.ofList descs
  | _ => True

namespace Session

theorem run_deactivateNode (ids : List NodeId) (s : Session V) :
    (Runs.run apply s (ids.map .deactivateNode)).engine = ids.foldl Engine.deactivate s.engine := by
  induction ids generalizing s with
  | nil => rfl
  | cons id ids ih => exact ih (s.apply (.deactivateNode id))

/-- Processing a command is a run of calls. -/
theorem exists_calls_handle (s : Session V) (hp : s.engine.pendingRemovals = []) (it : Iteration V)
    (hit : it.engine = s.engine) {command : Command V} (hb : command.FromBuilder) :
    ∃ calls, (Runs.run apply s calls).engine = (EventLoop.handle it command).engine ∧
      (EventLoop.handle it command).engine.pendingRemovals = [] := by
  cases command with
  | sourceUpdate id value =>
    refine ⟨[.update id value], ?_, ?_⟩
    · simp only [Runs.run_cons, Runs.run_nil, apply, EventLoop.handle, Engine.update, hit]
    · simpa only [EventLoop.handle, hit] using hp
  | merge subgraph reply =>
    obtain ⟨descs, rfl⟩ := hb
    have hrest := sameRest_activateSinks
      (e := s.engine.registerAll (SubgraphBuilder.ofList descs).descriptors)
      (SubgraphBuilder.ofList descs).nodeIds hp
    refine ⟨[.merge descs], ?_, ?_⟩
    · simp only [Runs.run_cons, Runs.run_nil, apply, EventLoop.handle, Engine.merge, hit,
        drainPendingRemovals_of_nil hp]
    · simp only [EventLoop.handle, hit]
      exact hrest.pendingRemovals.trans hp
  | remove nodeIds =>
    -- `release` deactivates from the back.
    refine ⟨nodeIds.reverse.map .deactivateNode, ?_, ?_⟩
    · rw [run_deactivateNode]
      simp only [EventLoop.handle, Engine.release, hit]
    · simp only [EventLoop.handle, hit]
      exact release_induction (P := fun e => e.pendingRemovals = []) (fun _ _ _ h _ _ => h)
        (fun _ _ _ h _ _ => h) nodeIds hp
  | asyncComplete => exact ⟨[], hit.symm, by simpa only [EventLoop.handle, hit] using hp⟩
  | sourceReady => exact ⟨[], hit.symm, by simpa only [EventLoop.handle, hit] using hp⟩
  | shutdown => exact ⟨[], hit.symm, by simpa only [EventLoop.handle, hit] using hp⟩

theorem exists_calls_handleAll (commands : List (Command V))
    (hb : ∀ command ∈ commands, command.FromBuilder) (s : Session V)
    (hp : s.engine.pendingRemovals = []) (it : Iteration V) (hit : it.engine = s.engine) :
    ∃ calls, (Runs.run apply s calls).engine = (commands.foldl EventLoop.handle it).engine ∧
      (commands.foldl EventLoop.handle it).engine.pendingRemovals = [] := by
  induction commands generalizing s it with
  | nil => exact ⟨[], hit.symm, by rwa [List.foldl_nil, hit]⟩
  | cons command commands ih =>
    obtain ⟨calls, hcalls, hpend⟩ :=
      exists_calls_handle s hp it hit (hb command List.mem_cons_self)
    obtain ⟨calls', hcalls', hpend'⟩ := ih (fun c hc => hb c (List.mem_cons_of_mem _ hc))
      (Runs.run apply s calls) (by rw [hcalls]; exact hpend) _ hcalls.symm
    exact ⟨calls ++ calls', by rw [Runs.run_append, hcalls', List.foldl_cons], hpend'⟩

/-- **An iteration of the event loop is a run of calls**, the last of which is a cycle if there is
one. The loop's own way of merging is that of the engine, when no removal is waiting. -/
theorem exists_calls_iterate (o : CycleOrder) {commands : List (Command V)}
    (hb : ∀ command ∈ commands, command.FromBuilder) (s : Session V)
    (hp : s.engine.pendingRemovals = []) :
    ∃ calls, (Runs.run apply s calls).engine = EventLoop.iterate o s.engine commands ∧
      (EventLoop.iterate o s.engine commands).pendingRemovals = [] := by
  obtain ⟨calls, hcalls, hpend⟩ :=
    exists_calls_handleAll commands hb s hp ⟨s.engine, [], false, false⟩ rfl
  unfold EventLoop.iterate EventLoop.handleAll
  simp only
  split
  · refine ⟨calls ++ [.runCycle o], ?_, ?_⟩
    · rw [Runs.run_append, Runs.run_cons, Runs.run_nil, apply, hcalls]
    · exact (sameFrame_runCycleImpl o false _).pendingRemovals.trans
        (pendingRemovals_drainPendingRemovals _)
  · exact ⟨calls, hcalls, hpend⟩

/-- From batch to batch, the event loop makes calls of a session that begins with `interpose`. -/
theorem exists_calls_runEventLoop (batches : List (CycleOrder × List (Command V)))
    (hb : ∀ batch ∈ batches, ∀ command ∈ batch.2, command.FromBuilder) :
    ∃ calls, (run (.interpose :: calls)).engine =
      EventLoop.runEventLoop EventLoop.start batches := by
  have hgen : ∀ s : Session V, s.engine.pendingRemovals = [] →
      ∃ calls, (Runs.run apply s calls).engine = EventLoop.runEventLoop s.engine batches := by
    induction batches with
    | nil => exact fun s _ => ⟨[], rfl⟩
    | cons batch batches ih =>
      intro s hp
      obtain ⟨calls, hcalls, hpend⟩ :=
        exists_calls_iterate batch.1 (hb batch List.mem_cons_self) s hp
      obtain ⟨o, commands⟩ := batch
      rw [EventLoop.runEventLoop]
      split
      · exact ⟨calls, hcalls⟩
      · obtain ⟨calls', hcalls'⟩ := ih (fun b h => hb b (List.mem_cons_of_mem _ h))
          (Runs.run apply s calls) (by rw [hcalls]; exact hpend)
        exact ⟨calls ++ calls', by rw [Runs.run_append, hcalls', hcalls]⟩
  exact hgen (init.apply .interpose) rfl

end Session

end ReactiveGraph
