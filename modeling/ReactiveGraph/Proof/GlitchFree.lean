import ReactiveGraph.Proof.Parallel

/-!
# A sequential cycle is glitch-free

A glitch is a node computed from values of which some are of this cycle and some are still of the
last one. The executor works in the store it writes, so what a node finds at its dependencies is
whatever is there by then; that it is what is there in the end needs the order, and nothing else. No
assumption is made about what a node computes: it may look at the whole store.

`GlitchFree` is the specification of one cycle, with the engine before and after: which nodes are
gone through, how often each is called, what each finds when it is called, and what becomes of the
values of those that are not computed. It holds of `runCycle` in every state that is wired, exact
and acyclic, whatever waits in the channels and however hash sets are walked. Async nodes may be
among the dirty ones; they are triggered in their place and read what the others read.

**How it is proved.** The calls of a cycle are those of the nodes of the sorted list, each in the
store that the nodes before it have left (`mem_effectsAlong`). A dependency of the node is before it
in the list, if it is dirty, and is not written afterwards, since no node comes twice; if it is not
dirty it is not written at all. So it has its final value by then.

The parallel executor is not spoken of here. It runs fewer nodes when async ones are dirty; where it
runs all of them it leaves the same store (`Parallel.lean`).
-/

namespace ReactiveGraph

variable {V : Type*}

/-- What the node found at its dependencies when it was called. -/
def Effect.reads : Effect V → List (Option V)
  | .activated _ => []
  | .computed _ reads _ | .emitted _ reads | .triggered _ reads => reads

/-- The last of the values sent for a node. -/
def lastSent (updates : List (NodeId × V)) (id : NodeId) : Option V :=
  ((updates.filter fun update => update.1 = id).getLast?).map Prod.snd

namespace Engine

variable {e e' : Engine V}

theorem getById_receive (store : ValueStore V) (updates : List (NodeId × V)) (id : NodeId) :
    (receive store updates).getById id = (lastSent updates id).or (store.getById id) := by
  induction updates using List.reverseRecOn with
  | nil => rfl
  | append_singleton updates u ih =>
    have hsnoc : receive store (updates ++ [u]) = (receive store updates).setById u.1 u.2 :=
      List.foldl_append
    rw [hsnoc, ValueStore.getById_setById, ih, lastSent, lastSent, List.filter_append]
    by_cases hid : u.1 = id
    · subst hid
      simp
    · simp [hid, Ne.symm hid]

theorem isSome_lastSent {updates : List (NodeId × V)} {id : NodeId}
    (h : id ∈ updates.map Prod.fst) : (lastSent updates id).isSome := by
  obtain ⟨update, hu, rfl⟩ := List.mem_map.mp h
  have hne : updates.filter (fun u => u.1 = update.1) ≠ [] :=
    List.ne_nil_of_mem (List.mem_filter.mpr ⟨hu, by simp⟩)
  simpa [lastSent] using hne

/-! ## What the executor goes through -/

/-- The nodes a time was taken of are those that were executed and are registered. It is the one
place where the source's own metrics say which nodes a cycle went through. -/
theorem timed_foldl_executeNode (l : List NodeId) (p : Progress V) (v : NodeId) :
    v ∈ (l.foldl executeNode p).timed ↔
      v ∈ p.timed ∨ v ∈ l ∧ v ∈ p.engine.graph.entries.keys := by
  induction l generalizing p with
  | nil => simp
  | cons id l ih =>
    have hentries : (executeNode p id).engine.graph.entries = p.engine.graph.entries := by
      rw [(executeNode_eq p id).1]
      rfl
    -- the time is taken after the lookup, so of registered nodes only
    have htimed : v ∈ (executeNode p id).timed ↔
        v ∈ p.timed ∨ v = id ∧ v ∈ p.engine.graph.entries.keys := by
      unfold executeNode
      cases hentry : p.engine.graph.entries.get id with
      | none =>
        have hnot := FinMap.notMem_keys.mpr hentry
        refine ⟨Or.inl, fun h => h.elim (fun h => h) ?_⟩
        rintro ⟨rfl, hmem⟩
        exact absurd hmem hnot
      | some entry =>
        have hreg := FinMap.mem_keys_of_get hentry
        have hinsert : v ∈ insert id p.timed ↔
            v ∈ p.timed ∨ v = id ∧ v ∈ p.engine.graph.entries.keys := by
          rw [Finset.mem_insert, or_comm]
          refine or_congr_right ⟨?_, fun h => h.1⟩
          rintro rfl
          exact ⟨rfl, hreg⟩
        cases hk : entry.kind <;> simpa only [hk] using hinsert
    rw [List.foldl_cons, ih, hentries, htimed, List.mem_cons]
    tauto

/-- A node that is no compute node keeps its value when it is executed. -/
theorem getById_nodeStore_of_not_compute {id : NodeId} (h : ¬ HasKind e.graph id .compute)
    (k : NodeId) (store : ValueStore V) :
    (e.nodeStore k store).getById id = store.getById id := by
  by_cases hk : id = k
  · subst hk
    unfold nodeStore
    split
    · next entry hentry => rw [if_neg fun hkind => h ⟨entry, hentry, hkind⟩]
    · rfl
  · exact framed_nodeStore e k store id hk

/-- What is executed writes only the values of compute nodes. -/
theorem getById_storeAfter {id : NodeId} {l : List NodeId}
    (h : ¬ (id ∈ l ∧ HasKind e.graph id .compute)) (store : ValueStore V) :
    (e.storeAfter l store).getById id = store.getById id := by
  by_cases hid : id ∈ l
  · have hkind : ¬ HasKind e.graph id .compute := fun hk => h ⟨hid, hk⟩
    clear h hid
    induction l generalizing store with
    | nil => rfl
    | cons k l ih =>
      exact (ih (e.nodeStore k store)).trans (getById_nodeStore_of_not_compute hkind k store)
  · exact Dataflow.get_evalAll_of_notMem (framed_nodeStore e) hid

/-- Every call on the way is made by one of the nodes, in the store as it is then: the list splits
at the node, and the store is what the part before it has left. -/
theorem mem_effectsAlong {l : List NodeId} {store : ValueStore V} {effect : Effect V}
    (h : effect ∈ e.effectsAlong l store) :
    ∃ a k b, l = a ++ k :: b ∧ effect ∈ e.nodeEffects k (e.storeAfter a store) := by
  induction l generalizing store with
  | nil => exact absurd h List.not_mem_nil
  | cons id l ih =>
    rcases List.mem_append.mp h with h | h
    · exact ⟨[], id, l, rfl, h⟩
    · obtain ⟨a, k, b, rfl, heffect⟩ := ih h
      exact ⟨id :: a, k, b, rfl, heffect⟩

/-- A call is made for the node that is executed, with what its dependencies have in that store,
value by value and in the order in which they are listed. -/
theorem reads_nodeEffects {id : NodeId} {store : ValueStore V} {effect : Effect V}
    (h : effect ∈ e.nodeEffects id store) :
    effect.nodeId = id ∧ effect.reads = store.reads (e.graph.depsOf id) := by
  unfold nodeEffects at h
  split at h
  · next entry hentry =>
    rw [Graph.depsOf_of_get hentry]
    split at h
    · obtain rfl := List.mem_singleton.mp h
      exact ⟨rfl, rfl⟩
    · obtain rfl := List.mem_singleton.mp h
      exact ⟨rfl, rfl⟩
    · obtain rfl := List.mem_singleton.mp h
      exact ⟨rfl, rfl⟩
    · exact absurd h List.not_mem_nil
  · exact absurd h List.not_mem_nil

/-! ## Glitch-freedom -/

/-- The node is a compute node that the cycle is going to run. -/
def Recomputes (e : Engine V) (id : NodeId) : Prop := e.Dirty id ∧ HasKind e.graph id .compute

/-- What a cycle is to do that finds the engine as `e` and leaves it as `e'`. The clauses speak of
all nodes: the dirty ones are gone through and called, the others are not, and a value changes only
where something was received or computed. -/
structure GlitchFree (e e' : Engine V) : Prop where
  /-- The executor goes through the dirty nodes, each of them once. -/
  visits : e.updated ≠ ∅ → ∃ metrics, e'.metrics.lastCycle = some metrics ∧
    (∀ v, v ∈ metrics.timed ↔ e.Dirty v) ∧ metrics.nodesComputed = metrics.timed.card
  once : ∀ v, e.Dirty v → e.HasCallback v → e'.evaluations v = e.evaluations v + 1
  others : ∀ v, ¬ (e.Dirty v ∧ e.HasCallback v) → e'.evaluations v = e.evaluations v
  /-- A node is called when its dependencies have the values they have in the end. -/
  settled : ∃ effects, e'.effects = e.effects ++ effects ∧ ∀ effect ∈ effects,
    effect.reads = e'.graph.valueStore.reads (e.graph.depsOf effect.nodeId)
  /-- An updated node has the last value sent for it, a result rather than a source's. -/
  received : ∀ id ∈ e.updated, ¬ e.Recomputes id → ∃ value,
    lastSent (e.graph.sourceRx ++ e.asyncManager.resultRx) id = some value ∧
      e'.graph.valueStore.getById id = some value
  kept : ∀ id, id ∉ e.updated → ¬ e.Recomputes id →
    e'.graph.valueStore.getById id = e.graph.valueStore.getById id

section Regular

variable (h : Regular e) (o : CycleOrder)

include h

theorem Regular.visits (hu : e.updated ≠ ∅) : ∃ metrics,
    (runCycleImpl o false e).metrics.lastCycle = some metrics ∧
      (∀ v, v ∈ metrics.timed ↔ e.Dirty v) ∧ metrics.nodesComputed = metrics.timed.card := by
  have htimed : ∀ v, v ∈ (e.received.executeSequentialWithAsync (e.sortedOf o)).timed ↔
      e.Dirty v := by
    intro v
    refine (timed_foldl_executeNode (e.sortedOf o) ⟨e.received, [], ∅⟩ v).trans ?_
    rw [or_iff_right (Finset.notMem_empty v), h.mem_sortedOf, (sameFrame_received e).entries]
    exact and_iff_left_of_imp fun hd => h.wired.active_subset (h.active_of_dirty hd)
  refine ⟨⟨e.received.metrics.totalCycles + 1, (e.sortedOf o).length,
    (e.received.executeSequentialWithAsync (e.sortedOf o)).timed⟩, ?_, htimed, ?_⟩
  · rw [runCycleImpl_eq, if_neg hu]
    have hmetrics : (e.received.executeSequentialWithAsync (e.sortedOf o)).engine.metrics =
        e.received.metrics := by
      rw [(executeSequentialWithAsync_eq e.received _).1]
      rfl
    show some (CycleMetrics.mk (_ + 1) _ _) = _
    exact congrArg (fun m : MetricsCollector => some (CycleMetrics.mk (m.totalCycles + 1)
      (e.sortedOf o).length (e.received.executeSequentialWithAsync (e.sortedOf o)).timed)) hmetrics
  · show (e.sortedOf o).length = Finset.card _
    rw [← List.toFinset_card_of_nodup (h.nodup_sortedOf o)]
    refine congrArg Finset.card (Finset.ext fun v => ?_)
    rw [htimed, List.mem_toFinset, h.mem_sortedOf]

/-- **What a node finds at its dependencies is what they end with.** The store at the end differs
from the store at the call by the nodes executed in between, and none of these is a dependency. -/
theorem Regular.settled : ∃ effects, (runCycleImpl o false e).effects = e.effects ++ effects ∧
    ∀ effect ∈ effects, effect.reads =
      (runCycleImpl o false e).graph.valueStore.reads (e.graph.depsOf effect.nodeId) := by
  obtain ⟨hstore, heffects⟩ := runCycleImpl_sequential o e
  have hframe := sameFrame_received e
  refine ⟨_, heffects, fun effect heffect => ?_⟩
  rw [hframe.along.1] at heffect
  obtain ⟨a, k, b, hsorted, hk⟩ := mem_effectsAlong heffect
  obtain ⟨hid, hreads⟩ := reads_nodeEffects hk
  have hnodup := h.nodup_sortedOf o
  have hordered := h.ordered_sortedOf o
  rw [hsorted] at hnodup hordered
  have hfinal : e.received.storeAfter (e.sortedOf o) e.received.graph.valueStore =
      e.storeAfter (a ++ k :: b) e.received.graph.valueStore := by
    rw [storeAfter, storeAfter, hframe.nodeStore, hsorted]
  rw [hreads, hid, hstore, hfinal]
  refine List.map_congr_left fun u hu => ?_
  exact Dataflow.reads_final (framed_nodeStore e) hnodup hordered _ hu

theorem Regular.getById_runCycleImpl {id : NodeId} (hid : ¬ e.Recomputes id) :
    (runCycleImpl o false e).graph.valueStore.getById id =
      e.received.graph.valueStore.getById id := by
  rw [(runCycleImpl_sequential o e).1]
  refine getById_storeAfter (fun hmem => hid ⟨h.mem_sortedOf.mp hmem.1, ?_⟩) _
  exact (HasKind.congr (sameFrame_received e).entries id .compute).mp hmem.2

/-- **A regular engine's sequential cycle is glitch-free.** The clauses one by one; the last two are
about nodes the executor does not write. -/
theorem Regular.glitchFree : GlitchFree e (runCycleImpl o false e) where
  visits hu := h.visits o hu
  once v hd hv := by
    have hv' : e.received.HasCallback v := by
      unfold HasCallback
      rw [(sameFrame_received e).entries]
      exact hv
    rw [evaluations, (runCycleImpl_sequential o e).2, List.map_append, List.count_append,
      (count_effectsAlong _ v _ _).1 hv', List.count_eq_one_of_mem (h.nodup_sortedOf o)
        (h.mem_sortedOf.mpr hd)]
    rfl
  others v hv := by
    rw [evaluations, (runCycleImpl_sequential o e).2, List.map_append, List.count_append]
    have hzero : ((e.received.effectsAlong (e.sortedOf o)
        e.received.graph.valueStore).map Effect.nodeId).count v = 0 := by
      -- The walk evaluates the dirty nodes with a callback, once for each time it comes to them.
      by_cases hc : e.received.HasCallback v
      · rw [(count_effectsAlong _ v _ _).1 hc]
        refine List.count_eq_zero.mpr fun hmem => hv ⟨h.mem_sortedOf.mp hmem, ?_⟩
        unfold HasCallback at hc ⊢
        rwa [(sameFrame_received e).entries] at hc
      · exact (count_effectsAlong _ v _ _).2 hc
    rw [hzero]
    rfl
  settled := h.settled o
  received id hid hrec := by
    rw [h.getById_runCycleImpl o hrec, store_received, getById_receive]
    rw [updated, List.mem_toFinset, ← List.map_append] at hid
    obtain ⟨value, hvalue⟩ := Option.isSome_iff_exists.mp (isSome_lastSent hid)
    exact ⟨value, hvalue, by rw [hvalue, Option.some_or]⟩
  kept id hid hrec := by rw [h.getById_runCycleImpl o hrec, getById_received e hid]

end Regular

end Engine

open Engine

/-- **One sequential cycle is glitch-free**, whatever is waiting in the channels and in whatever
order hash sets are walked. The topology of an engine holds the active nodes, each with the
dependencies of its entry, in every run (`World.wired_run`). `run_cycle` works off the removal queue
first; with nothing queued the engine its cycle finds is the engine it was called on.

The hypotheses are those of a state before the removals, of which exactness may be lost by them;
what is left of it is enough. -/
theorem runCycle_glitchFree (e : Engine V) (hwired : e.Wired) (hexact : Exact e.topology)
    (hacyclic : Dag.Acyclic fun u v => u ∈ e.topology.depsOf v) (o : CycleOrder) :
    GlitchFree e.drainPendingRemovals (e.runCycle o) :=
  (Regular.drainPendingRemovals hwired hexact hacyclic).glitchFree o

theorem runCycle_glitchFree_diamond :
    GlitchFree diamond.drainPendingRemovals (diamond.runCycle default) :=
  runCycle_glitchFree diamond (World.wired_run _) ok_diamond.exact acyclic_diamond default

end ReactiveGraph
