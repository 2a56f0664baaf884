import ReactiveGraph.Model.EventLoop
import ReactiveGraph.Proof.World

/-!
# What a merge acquires and its handle releases

A builder keeps two accounts of the nodes it is given. A merge acquires by the descriptors, one
reference for each id; the handle releases by the ids, each as often as it was given. The accounts
agree when no id was given twice, and only then: a handle that names a node twice takes a reference
with it that belongs to someone else.

**Both merges**, the engine's own and that of the event loop, register and list alike; the second
does not drain first and answers with the list. That it need not drain is
`pendingRemovals_runEventLoop`: no removal is ever pending in a loop's engine, whatever the
commands, and this is where the hypothesis of the main result on the loop's state comes from.

Activation, which follows the registration, acquires nothing. So a reference is held for a
registration and for nothing else, while the cascade of a removal takes references for dependencies
(`Lifetime.lean`): the balance here is between a merge and its handle's list, and not between a
merge and all that the drop of the handle will do.

The equivalence is over every list of registrations and every engine, with any of the nodes
registered before. When it fails, what is missing is a reference of another owner, and
`merge_unbalanced` shows one losing its node.
-/

namespace ReactiveGraph

variable {V : Type*}

namespace Engine

variable {e : Engine V}

/-- The references counted for a node, none for an unregistered one. -/
def refCountOf (e : Engine V) (id : NodeId) : ℕ :=
  ((e.graph.entries.get id).map NodeEntry.refCount).getD 0

theorem refCountOf_congr {e' : Engine V} (h : e'.graph.entries = e.graph.entries) (id : NodeId) :
    e'.refCountOf id = e.refCountOf id := by
  unfold refCountOf
  rw [h]

/-- Registration acquires one reference for each descriptor, whether the node is new or not. -/
theorem refCountOf_registerAll (descs : List (NodeDescriptor V)) (id : NodeId) :
    (e.registerAll descs).refCountOf id =
      e.refCountOf id + (descs.map NodeDescriptor.id).count id := by
  unfold refCountOf
  rw [get_registerAll]
  cases e.graph.entries.get id with
  | some entry => rfl
  | none =>
    cases hfind : descs.find? (·.id = id) with
    | some desc => simp [registeredEntry, hfind]
    | none =>
      have hnot : id ∉ descs.map NodeDescriptor.id := fun hmem => by
        obtain ⟨desc, hdesc, rfl⟩ := List.mem_map.mp hmem
        simpa using List.find?_eq_none.mp hfind desc hdesc
      simp [registeredEntry, hfind, List.count_eq_zero.mpr hnot]

/-- From `before` to `after` each node gains a reference for each time it is on the release list. -/
def Balanced (before after : Engine V) (released : List NodeId) : Prop :=
  ∀ id, after.refCountOf id = before.refCountOf id + released.count id

/-- **Registering what a builder hands over is balanced** when the builder lists no id twice. It
hands over one descriptor for each id, and the list has the id once for each time it was given. -/
theorem balanced_registerAll_iff {s : Subgraph V} (hs : s.Built) :
    Balanced e (e.registerAll s.descriptors) s.nodeIds ↔ s.nodeIds.Nodup := by
  have hcount : ∀ id, (s.descriptors.map NodeDescriptor.id).count id =
      if id ∈ s.nodeIds then 1 else 0 := fun id => by
    simp only [hs.ids, hs.nodup.count]
  simp only [Balanced, refCountOf_registerAll, Nat.add_left_cancel_iff, hcount]
  constructor
  · intro h
    refine List.nodup_iff_count_le_one.mpr fun id => ?_
    rw [← h id]
    split <;> omega
  · intro h id
    exact h.count.symm

/-- What follows the registration, the activation of the sinks, acquires nothing. -/
theorem balanced_activateSinks_iff (hp : e.pendingRemovals = []) {s : Subgraph V} (hs : s.Built) :
    Balanced e (s.nodeIds.foldl activateIfSink (e.registerAll s.descriptors)) s.nodeIds ↔
      s.nodeIds.Nodup := by
  have hp' : (e.registerAll s.descriptors).pendingRemovals = [] := hp
  have hrest := sameRest_activateSinks s.nodeIds hp'
  rw [← balanced_registerAll_iff (e := e) hs]
  simp only [Balanced, refCountOf_congr hrest.entries]

end Engine

open Engine

/-! ## The event loop has nothing to drain -/

namespace EventLoop

theorem pendingRemovals_handle {s : Iteration V} (hp : s.engine.pendingRemovals = [])
    (c : Command V) : (handle s c).engine.pendingRemovals = [] := by
  cases c with
  | merge subgraph reply =>
    have hp' : (s.engine.registerAll subgraph.descriptors).pendingRemovals = [] := hp
    exact (sameRest_activateSinks subgraph.nodeIds hp').pendingRemovals.trans hp
  | remove nodeIds => exact (pendingRemovals_release _ _).trans hp
  | _ => exact hp

theorem pendingRemovals_handleAll {e : Engine V} (hp : e.pendingRemovals = [])
    (commands : List (Command V)) : (handleAll e commands).engine.pendingRemovals = [] := by
  unfold handleAll
  generalize hs : (⟨e, [], false, false⟩ : Iteration V) = s
  have hp' : s.engine.pendingRemovals = [] := hs ▸ hp
  clear hs
  induction commands generalizing s with
  | nil => exact hp'
  | cons c commands ih => exact ih _ (pendingRemovals_handle hp' c)

/-- **No command finds a removal pending.** A remote handle sends a command when it is dropped, so
nothing puts anything on the queue; the condition is that nothing was there to begin with, as in the
engine the loop starts with. -/
theorem pendingRemovals_runEventLoop {e : Engine V} (hp : e.pendingRemovals = [])
    (batches : List (CycleOrder × List (Command V))) :
    (runEventLoop e batches).pendingRemovals = [] := by
  have hiterate : ∀ (e : Engine V) o commands, e.pendingRemovals = [] →
      (iterate o e commands).pendingRemovals = [] := fun e o commands hp => by
    have hp' := pendingRemovals_handleAll hp commands
    show (if (handleAll e commands).hasUpdates then (handleAll e commands).engine.runCycle o
      else (handleAll e commands).engine).pendingRemovals = []
    split
    · rw [runCycle, (sameFrame_runCycleImpl o false _).pendingRemovals,
        pendingRemovals_drainPendingRemovals]
    · exact hp'
  induction batches generalizing e with
  | nil => exact hp
  | cons batch batches ih =>
    rw [runEventLoop]
    split
    · exact hiterate e _ _ hp
    · exact ih (hiterate e _ _ hp)

end EventLoop

/-- **Acquire and release balance** in both merges exactly when no id was registered twice with the
builder.

The condition is on the calls of the builder. The engine's merge is compared from the state after
its own drain; the loop's engine has nothing pending, which is a hypothesis here and holds in every
run of the loop. -/
theorem merge_balanced_iff (descs : List (NodeDescriptor V)) (e : Engine V) (s : Iteration V)
    (hp : s.engine.pendingRemovals = []) (reply : ℕ) :
    let subgraph := SubgraphBuilder.ofList descs
    (Balanced e.drainPendingRemovals (e.merge subgraph).1 (e.merge subgraph).2.nodeIds ↔
        (descs.map NodeDescriptor.id).Nodup) ∧
      ∃ released, (EventLoop.handle s (.merge subgraph reply)).replies =
          s.replies ++ [(reply, released)] ∧
        (Balanced s.engine (EventLoop.handle s (.merge subgraph reply)).engine released ↔
          (descs.map NodeDescriptor.id).Nodup) := by
  have hs := SubgraphBuilder.built_ofList descs
  rw [← SubgraphBuilder.nodeIds_ofList]
  exact ⟨balanced_activateSinks_iff (pendingRemovals_drainPendingRemovals e) hs, _, rfl,
    balanced_activateSinks_iff hp hs⟩

open Sample in
/-- An engine, and an event loop's engine, that hold a source for someone else. -/
def owned : Engine ℕ := ((new : Engine ℕ).merge (SubgraphBuilder.ofList [node .source 0 []])).1

open Sample in
def ownedByLoop : Engine ℕ := EventLoop.runEventLoop EventLoop.start
  [(default, [.merge (SubgraphBuilder.ofList [node .source 0 []]) 0])]

open Sample in
/-- Merging the source again, with a node and a sink after it, adds a reference to each of the three,
the source's second one among them. An event loop has no removals pending when the command comes. -/
theorem merge_balanced_iff_shared :
    let subgraph := SubgraphBuilder.ofList [node .source 0 [], node .compute 1 [0], node .sink 2 [1]]
    Balanced owned.drainPendingRemovals (owned.merge subgraph).1 [nodeId 0, nodeId 1, nodeId 2] ∧
      Balanced ownedByLoop (EventLoop.handle ⟨ownedByLoop, [], false, false⟩
        (.merge subgraph 1)).engine [nodeId 0, nodeId 1, nodeId 2] ∧
      (owned.merge subgraph).1.refCountOf (nodeId 0) = 2 := by
  obtain ⟨hmerge, released, hreplies, hhandle⟩ := merge_balanced_iff
    [node .source 0 [], node .compute 1 [0], node .sink 2 [1]] owned
    ⟨ownedByLoop, [], false, false⟩ (EventLoop.pendingRemovals_runEventLoop rfl _) 1
  have hlast : [(1, [nodeId 0, nodeId 1, nodeId 2])] = [(1, released)] := hreplies
  obtain rfl : [nodeId 0, nodeId 1, nodeId 2] = released := by simpa using hlast
  exact ⟨hmerge.mpr (by decide), hhandle.mpr (by decide), by decide +kernel⟩

open Sample in
/-- A node merged under one handle is registered twice with a second builder. Merging that adds one
reference and lists the node twice: with the second handle's release the node is gone, although the
first handle is still held. -/
theorem merge_unbalanced :
    let twice := SubgraphBuilder.ofList [node .source 0 [], node .source 0 []]
    ¬ Balanced owned.drainPendingRemovals (owned.merge twice).1 (owned.merge twice).2.nodeIds ∧
      nodeId 0 ∉ ((owned.merge twice).1.dropHandle
        (owned.merge twice).2).drainPendingRemovals.graph.entries.keys := by
  refine ⟨fun h => ?_, by decide +kernel⟩
  have := h (nodeId 0)
  revert this
  decide +kernel

end ReactiveGraph
