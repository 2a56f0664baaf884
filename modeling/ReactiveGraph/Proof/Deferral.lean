import ReactiveGraph.Proof.Confluence
import ReactiveGraph.Proof.Representation

/-!
# Deferred removals

The nodes of a dropped handle stay until the next method that drains the removal queue. The drain
itself is what relates the two ways to run a client: an engine with a removal pending stands for the
drained engine, the one there would be had the drop taken the nodes at once. A method that drains
does the same to both. One that does not has to commute with the drain, and all but one do.
`set_error_strategy` writes under the id it is given: where the node is about to go, the strategy
goes with it if the drain comes after, and stays if it came before.

**What is compared** is everything that a removal writes (`SameState`), after each beginning of the
run, with the deferred engine drained for the comparison. Between two calls the engines differ, of
course: the nodes are still there in one of them. What a program could tell is whether it makes a
difference later, and by draining both one asks just that.

**Where a strategy stays behind**, it is on record for an id that is not registered, and the node
that is registered under the id next is run under it. In the deferred run it is not. So the
difference shows in a later cycle, though it arises in a map nobody looks at meanwhile.

The condition speaks of the state before the call: the node is not registered, or has references
left that no pending removal takes, which is being held against the whole queue. It leaves out only
calls on nodes that are as good as gone.

Queues are worked off front to back, in one pass or in several, to the same effect
(`drain_dropHandle`), so the number of drops between two drains plays no part.
-/

namespace ReactiveGraph

variable {V : Type*}

namespace Engine

variable {e e' : Engine V}

/-- The two engines agree on everything that a removal writes. -/
structure SameState (e e' : Engine V) : Prop where
  entries : e'.graph.entries = e.graph.entries
  active : e'.active = e.active
  guards : e'.guards = e.guards
  errorStrategies : e'.errorStrategies = e.errorStrategies
  topology : e'.topology = e.topology
  store : e'.graph.valueStore = e.graph.valueStore

theorem SameState.refl (e : Engine V) : SameState e e := ⟨rfl, rfl, rfl, rfl, rfl, rfl⟩

/-! ## What commutes with the drain -/

theorem pruned_drainPendingRemovals (e : Engine V) :
    Pruned { e with pendingRemovals := [] } e.drainPendingRemovals := by
  rw [drainPendingRemovals_eq_foldl]
  exact pruned_foldl_deactivate _

/-- Pruned to the same entries, it is the drained engine. -/
theorem drainPendingRemovals_eq (h : Pruned { e with pendingRemovals := [] } e')
    (hentries : e'.graph.entries =
      RefCount.release (e.pendingRemovals.flatMap List.reverse) e.graph.entries) :
    e.drainPendingRemovals = e' :=
  (pruned_drainPendingRemovals e).unique h ((entries_drainPendingRemovals e).trans hentries.symm)

theorem drain_drain (e : Engine V) :
    e.drainPendingRemovals.drainPendingRemovals = e.drainPendingRemovals :=
  drainPendingRemovals_of_nil (pendingRemovals_drainPendingRemovals e)

/-- The queue is worked off front to back, so what is put last may wait for another drain. -/
theorem drain_dropHandle (e : Engine V) (handle : SubgraphHandle) :
    (e.dropHandle handle).drainPendingRemovals =
      (e.drainPendingRemovals.dropHandle handle).drainPendingRemovals := by
  by_cases hnil : handle.nodeIds = []
  · simp only [dropHandle, if_pos hnil, drain_drain]
  · rw [drop_eq (pendingRemovals_drainPendingRemovals e), dropHandle, if_neg hnil,
      drainPendingRemovals, List.foldl_append]
    rfl

theorem drain_send (e : Engine V) (id : NodeId) (value : V) :
    (e.send id value).drainPendingRemovals = e.drainPendingRemovals.send id value := by
  have h := pruned_drainPendingRemovals e
  have hentries : ∀ e : Engine V, (e.send id value).graph.entries = e.graph.entries :=
    fun e => Graph.entries_sendSource _ _ _
  have hpending : (e.send id value).pendingRemovals = e.pendingRemovals := rfl
  refine drainPendingRemovals_eq ?_ (by
    rw [hentries, hentries, hpending, entries_drainPendingRemovals])
  have hb : e.drainPendingRemovals.graph.bridge = e.graph.bridge := h.bridge
  have hrx : e.drainPendingRemovals.graph.sourceRx = e.graph.sourceRx := h.sourceRx
  unfold send Graph.sendSource
  rw [hb, hrx]
  cases e.graph.bridge with
  | none => exact { h with sourceRx := rfl, bridge := rfl }
  | some waiting => exact { h with sourceRx := rfl, bridge := rfl }

theorem drain_complete (e : Engine V) (task : TaskId) :
    (e.complete task).drainPendingRemovals = e.drainPendingRemovals.complete task :=
  have h := pruned_drainPendingRemovals e
  drainPendingRemovals_eq { h with asyncManager := congrArg (·.complete task) h.asyncManager }
    (entries_drainPendingRemovals e)

theorem drain_concurrencyGroup (e : Engine V) (n : ℕ) :
    (e.concurrencyGroup n).1.drainPendingRemovals = (e.drainPendingRemovals.concurrencyGroup n).1 :=
  have h := pruned_drainPendingRemovals e
  drainPendingRemovals_eq
    { h with asyncManager := congrArg (fun m => (m.createGroup n).1) h.asyncManager }
    (entries_drainPendingRemovals e)

/-- A strategy set for a node that stays, or was not there, is the same after the drain. A drain
removes the strategies of what it removes, and of nothing else. -/
theorem drain_setErrorStrategy {id : NodeId}
    (hstays : id ∈ e.graph.entries.keys → id ∈ e.drainPendingRemovals.graph.entries.keys)
    (strategy : ErrorStrategy) : (e.setErrorStrategy id strategy).drainPendingRemovals =
      e.drainPendingRemovals.setErrorStrategy id strategy := by
  have h := pruned_drainPendingRemovals e
  have hnot : ¬ Removed { e with pendingRemovals := [] } e.drainPendingRemovals id :=
    fun hr => hr.2 (hstays hr.1)
  refine drainPendingRemovals_eq { h with errorStrategies := fun id' => ?_ }
    (entries_drainPendingRemovals e)
  show (e.drainPendingRemovals.errorStrategies.insert id strategy).get id' =
    if Removed { e with pendingRemovals := [] } e.drainPendingRemovals id' then none
      else (e.errorStrategies.insert id strategy).get id'
  rw [FinMap.get_insert, FinMap.get_insert, h.errorStrategies]
  by_cases hid : id' = id
  · subst hid
    simp [hnot]
  · simp [hid]

/-- **Set for a node that is about to go, it is not.** The drain takes the strategy with the node,
where the drained engine keeps it for an id that has none. -/
theorem drain_setErrorStrategy_ne {id : NodeId} (hid : id ∈ e.graph.entries.keys)
    (hgone : id ∉ e.drainPendingRemovals.graph.entries.keys) (strategy : ErrorStrategy) :
    (e.setErrorStrategy id strategy).drainPendingRemovals.errorStrategies.get id = none := by
  have h := pruned_drainPendingRemovals (e.setErrorStrategy id strategy)
  rw [h.errorStrategies, if_pos]
  refine ⟨hid, ?_⟩
  rw [entries_drainPendingRemovals] at hgone ⊢
  exact hgone

/-! ## Methods that drain -/

/-- The method drains the queue before anything else, and puts nothing on it. So it cannot tell a
deferred engine from a drained one. -/
structure Drains (f : Engine V → Engine V) : Prop where
  first : ∀ e, f e = f e.drainPendingRemovals
  empty : ∀ e, (f e).pendingRemovals = []

theorem Drains.drain_eq {f : Engine V → Engine V} (h : Drains f) (e : Engine V) :
    (f e).drainPendingRemovals = f e.drainPendingRemovals := by
  rw [drainPendingRemovals_of_nil (h.empty e), ← h.first]

theorem drains_register (desc : NodeDescriptor V) : Drains fun e => e.register desc where
  first e := by simp only [register, drain_drain]
  empty e := pendingRemovals_drainPendingRemovals e

theorem drains_merge (s : Subgraph V) : Drains fun e : Engine V => (e.merge s).1 where
  first e := by simp only [merge, drain_drain]
  empty e := (sameRest_merge e s).pendingRemovals.trans (pendingRemovals_drainPendingRemovals e)

theorem drains_activateSink (id : NodeId) : Drains fun e : Engine V => e.activateSink id where
  first e := by simp only [activateSink, drain_drain]
  empty e := (sameRest_activate _ _).pendingRemovals.trans (pendingRemovals_drainPendingRemovals e)

theorem drains_runCycleImpl (o : CycleOrder) (parallel : Bool) :
    Drains fun e : Engine V => runCycleImpl o parallel e.drainPendingRemovals where
  first e := by simp only [drain_drain]
  empty e := (sameFrame_runCycleImpl o parallel _).pendingRemovals.trans
    (pendingRemovals_drainPendingRemovals e)

end Engine

open Engine

/-! ## Runs -/

/-- A strategy is set for a node that is not registered, or has references left that no pending
removal takes: it lies in a set of nodes each counted more often than the pending lists name it and
registered nodes outside the set read it. -/
def Action.SetsHeld (w : World V) : Action V → Prop
  | .setErrorStrategy id _ => id ∈ w.engine.graph.entries.keys →
      RefCount.Held w.engine.pendingRemovals.flatten w.engine.graph.entries id
  | _ => True

namespace World

/-- The deferred world stands for the eager one: drained, it is that world. -/
structure Defers (w w' : World V) : Prop where
  drain : w.engine.drainPendingRemovals = w'.engine
  handles : w.handles = w'.handles
  represented : w.engine.Represented

variable {w w' : World V}

/-- **Every action keeps the two worlds together**, when strategies are set for held nodes. Those
that drain do so by `Drains`, sends and completions commute with the drain, and a drop only makes
the queue longer. -/
theorem Defers.apply (h : w.Defers w') {a : Action V} (ha : a.SetsHeld w) :
    (w.applyDeferred a).Defers (w'.apply a) := by
  obtain ⟨hdrain, hhandles, hr⟩ := h
  have hs := Represented.stable (V := V)
  have hdrains : ∀ {f : Engine V → Engine V}, Drains f →
      (f w.engine).drainPendingRemovals = f w'.engine := fun hf => by rw [hf.drain_eq, hdrain]
  cases a with
  | register desc =>
    exact ⟨hdrains (drains_register desc), hhandles,
      hs.registerAll [desc] (hs.drainPendingRemovals hr)⟩
  | merge descs =>
    exact ⟨hdrains (drains_merge _), congrArg (· ++ [_]) hhandles, hs.merge _ hr⟩
  -- a drop only makes the queue longer, and draining that is to do the removal at once
  | drop i =>
    simp only [applyDeferred, World.apply, ← hhandles]
    cases w.handles[i]? with
    | none => exact ⟨hdrain, hhandles, hr⟩
    | some held =>
      exact ⟨by rw [drain_dropHandle, hdrain], rfl,
        hs.other _ _ hr (sameNodes_dropHandle w.engine held.handle)⟩
  | activateSink id =>
    exact ⟨hdrains (drains_activateSink id), hhandles, hs.activateSink id hr⟩
  | setErrorStrategy id strategy =>
    refine ⟨?_, hhandles, hs.other _ _ hr ⟨rfl, rfl, rfl, rfl, rfl⟩⟩
    -- the strategy would go with the node, so the node has to stay
    have hstays := fun hid => (mem_keys_drainPendingRemovals hr.counted).mpr ⟨hid, ha hid⟩
    exact (drain_setErrorStrategy hstays strategy).trans (by rw [hdrain]; rfl)
  | concurrencyGroup n =>
    exact ⟨(drain_concurrencyGroup w.engine n).trans (by rw [hdrain]; rfl), hhandles,
      hs.other _ _ hr ⟨rfl, rfl, rfl, rfl, rfl⟩⟩
  | send id value =>
    exact ⟨(drain_send w.engine id value).trans (by rw [hdrain]; rfl), hhandles,
      hs.other _ _ hr (sameNodes_send w.engine id value)⟩
  | complete task =>
    exact ⟨(drain_complete w.engine task).trans (by rw [hdrain]; rfl), hhandles,
      hs.other _ _ hr ⟨rfl, rfl, rfl, rfl, rfl⟩⟩
  | runCycle o =>
    exact ⟨hdrains (drains_runCycleImpl o false), hhandles,
      (hs.drainPendingRemovals hr).runCycleImpl o false⟩
  | runCycleParallel o =>
    exact ⟨hdrains (drains_runCycleImpl o true), hhandles,
      (hs.drainPendingRemovals hr).runCycleImpl o true⟩

/-- A strategy set for a node that is about to go is lost in one world and stays in the other. -/
theorem Defers.not_sameState (h : w.Defers w') {a : Action V} (ha : ¬ a.SetsHeld w) :
    ¬ SameState (w'.apply a).engine (w.applyDeferred a).engine.drainPendingRemovals := by
  cases a with
  | setErrorStrategy id strategy =>
    obtain ⟨hid, hheld⟩ := Classical.not_imp.mp ha
    have hgone : id ∉ w.engine.drainPendingRemovals.graph.entries.keys := fun hmem =>
      hheld ((mem_keys_drainPendingRemovals h.represented.counted).mp hmem).2
    intro hsame
    have hlost := drain_setErrorStrategy_ne hid hgone strategy
    have hkept : ((w'.engine.setErrorStrategy id strategy).errorStrategies).get id = some strategy :=
      FinMap.get_insert_self _ _ _
    have heq : (w.engine.setErrorStrategy id strategy).drainPendingRemovals.errorStrategies =
        (w'.engine.setErrorStrategy id strategy).errorStrategies := hsame.errorStrategies
    rw [heq, hkept] at hlost
    exact absurd hlost (by simp)
  | _ => exact absurd trivial ha

end World

/-- **Deferring removals is unobservable** in a run, and every part of it, exactly when no strategy
is set for a node that only a pending removal keeps from being gone.

The condition is checked along the deferred run, whose queue is where the removals wait. Every
beginning of the run is compared, so the first call that violates the condition is seen. -/
theorem deferring_unobservable_iff (as : List (Action V)) :
    (∀ bs, bs <+: as →
        SameState (World.run bs).engine (World.runDeferred bs).engine.drainPendingRemovals) ↔
      Runs.AllSteps World.applyDeferred (fun w a => a.SetsHeld w) World.init as := by
  have hP : ∀ w w' : World V, w.Defers w' →
      SameState w'.engine w.engine.drainPendingRemovals := fun w w' h => by
    rw [h.drain]
    exact .refl _
  have hinit : (World.init : World V).Defers World.init := ⟨rfl, rfl, Represented.new⟩
  have hstep : ∀ w w' (a : Action V), w.Defers w' → a.SetsHeld w →
      (w.applyDeferred a).Defers (w'.apply a) := fun _ _ _ h => h.apply
  exact Runs.lockstep_iff_allSteps hP hstep (fun _ _ _ h => h.not_sameState) hinit

open Sample in
/-- The one node of a dropped handle is given a strategy before the drain. Deferred, the strategy is
gone with the node. Had the drop taken the node at once, the strategy would stay behind. -/
theorem deferring_observable :
    let as : List (Action ℕ) :=
      [.merge [node .source 0 []], .drop 0, .setErrorStrategy (nodeId 0) .propagateError]
    ¬ SameState (World.run as).engine (World.runDeferred as).engine.drainPendingRemovals := by
  intro as h
  have hkept : (World.run as).engine.errorStrategies.get (nodeId 0) = some .propagateError := by
    decide +kernel
  have hlost : (World.runDeferred as).engine.drainPendingRemovals.errorStrategies.get (nodeId 0) =
      none := by decide +kernel
  rw [h.errorStrategies, hkept] at hlost
  exact absurd hlost (by simp)

end ReactiveGraph
