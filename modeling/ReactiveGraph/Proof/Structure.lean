import ReactiveGraph.Proof.Cycle
import ReactiveGraph.Proof.Merge

/-!
# What the structure of an engine depends on

Which nodes are registered, which are active, how they are wired and who holds a guard is decided by
registrations, activations and removals, and these look at nothing but that. What is in the store or
in a channel never matters, and a cycle changes nothing of it. So two engines with one structure
(`SameStructure`) that are told the same things keep one structure.

It is a relation between two engines and not a property of one: each lemma takes an operation and
says that engines with one structure still have one after both have taken it. The proofs follow the
operations, and in each branch the two engines take the same one, since what decides it is in the
structure.

It is used to compare runs that differ in when values arrive: a run whose cycles come at other
times, or whose values come in other batches, has the same nodes at every point. Values, tasks and
effects are then compared by other means.

The error strategies are part of it although no registration looks at them: a removal takes a node's
strategy away, and a cycle that follows asks for it.
-/

namespace ReactiveGraph

namespace Engine

variable {V : Type*} {e e' : Engine V}

/-- One structure: the same nodes, wired, active and guarded alike, with the same strategies and the
same removals waiting. -/
structure SameStructure (e e' : Engine V) : Prop where
  entries : e'.graph.entries = e.graph.entries
  topology : e'.topology = e.topology
  active : e'.active = e.active
  guards : e'.guards = e.guards
  errorStrategies : e'.errorStrategies = e.errorStrategies
  pendingRemovals : e'.pendingRemovals = e.pendingRemovals

namespace SameStructure

theorem refl (e : Engine V) : SameStructure e e := ⟨rfl, rfl, rfl, rfl, rfl, rfl⟩

theorem symm (h : SameStructure e e') : SameStructure e' e :=
  ⟨h.entries.symm, h.topology.symm, h.active.symm, h.guards.symm, h.errorStrategies.symm,
    h.pendingRemovals.symm⟩

theorem trans {e₁ e₂ e₃ : Engine V} (h : SameStructure e₁ e₂) (h' : SameStructure e₂ e₃) :
    SameStructure e₁ e₃ :=
  ⟨h'.entries.trans h.entries, h'.topology.trans h.topology, h'.active.trans h.active,
    h'.guards.trans h.guards, h'.errorStrategies.trans h.errorStrategies,
    h'.pendingRemovals.trans h.pendingRemovals⟩

end SameStructure

theorem SameFrame.sameStructure (h : SameFrame e e') : SameStructure e e' :=
  ⟨h.entries, h.topology, h.active, h.guards, h.errorStrategies, h.pendingRemovals⟩

namespace SameStructure

/-- Steps that keep one structure keep it all together. Every loop of the engine that is not a cycle
is a fold of such steps. -/
theorem foldl {α : Type*} {f : Engine V → α → Engine V}
    (hf : ∀ x e e', SameStructure e e' → SameStructure (f e x) (f e' x)) (l : List α)
    (h : SameStructure e e') : SameStructure (l.foldl f e) (l.foldl f e') := by
  induction l generalizing e e' with
  | nil => exact h
  | cons x l ih => exact ih (hf x e e' h)

/-! ## Removals -/

theorem setEntries (h : SameStructure e e') (entries : FinMap NodeId (NodeEntry V)) :
    SameStructure (e.setEntries entries) (e'.setEntries entries) :=
  ⟨rfl, h.topology, h.active, h.guards, h.errorStrategies, h.pendingRemovals⟩

theorem removeEntry (h : SameStructure e e') (id : NodeId) (kind : NodeKind) :
    SameStructure (e.removeEntry id kind) (e'.removeEntry id kind) where
  entries := congrArg (FinMap.remove · id) h.entries
  topology := congrArg (Topology.removeNode · id) h.topology
  active := congrArg (Finset.erase · id) h.active
  guards := by simp only [Engine.removeEntry, h.guards]
  errorStrategies := congrArg (FinMap.remove · id) h.errorStrategies
  pendingRemovals := h.pendingRemovals

theorem deactivateNode (n : ℕ) (id : NodeId) (h : SameStructure e e') :
    SameStructure (Engine.deactivateNode n id e) (Engine.deactivateNode n id e') := by
  induction n generalizing id e e' with
  | zero => exact h
  | succ n ih =>
    unfold Engine.deactivateNode
    rw [h.entries]
    cases e.graph.entries.get id with
    | none => exact h
    | some entry =>
      simp only
      split
      · exact h.setEntries _
      · exact (h.removeEntry id entry.kind).foldl (fun dep _ _ h' => ih dep h') entry.deps

theorem deactivate (h : SameStructure e e') (id : NodeId) :
    SameStructure (e.deactivate id) (e'.deactivate id) := by
  unfold Engine.deactivate
  rw [h.entries]
  exact h.deactivateNode _ id

theorem release (h : SameStructure e e') (nodeIds : List NodeId) :
    SameStructure (e.release nodeIds) (e'.release nodeIds) :=
  h.foldl (fun id _ _ h' => h'.deactivate id) nodeIds.reverse

theorem drainPendingRemovals (h : SameStructure e e') :
    SameStructure e.drainPendingRemovals e'.drainPendingRemovals := by
  unfold Engine.drainPendingRemovals
  rw [h.pendingRemovals]
  have hcleared : SameStructure { e with pendingRemovals := [] } { e' with pendingRemovals := [] } :=
    ⟨h.entries, h.topology, h.active, h.guards, h.errorStrategies, rfl⟩
  exact hcleared.foldl (fun ids _ _ h' => h'.release ids) e.pendingRemovals

/-! ## Activations -/

theorem markActive (h : SameStructure e e') (id : NodeId) (deps : List NodeId) :
    SameStructure (e.markActive id deps) (e'.markActive id deps) where
  entries := h.entries
  topology := congrArg (Topology.addNode · id deps) h.topology
  active := congrArg (insert id) h.active
  guards := h.guards
  errorStrategies := h.errorStrategies
  pendingRemovals := h.pendingRemovals

/-- A callback that sends something sends it into a channel, which is not part of the structure;
that a guard is returned is decided by the registry. -/
theorem invokeActivate (h : SameStructure e e') (id : NodeId) :
    SameStructure (e.invokeActivate id) (e'.invokeActivate id) := by
  have hrest := sameRest_invokeActivate e id
  have hrest' := sameRest_invokeActivate e' id
  refine ⟨by rw [hrest'.entries, hrest.entries, h.entries], ?_, ?_, ?_,
    by rw [hrest'.errorStrategies, hrest.errorStrategies, h.errorStrategies],
    by rw [hrest'.pendingRemovals, hrest.pendingRemovals, h.pendingRemovals]⟩ <;>
  · unfold Engine.invokeActivate
    rw [h.entries]
    split
    · simp only [h.topology, h.active, h.guards]
    · simp only [h.topology, h.active, h.guards]

/-- The initial computation writes a value at most. -/
theorem initialCompute (e : Engine V) (id : NodeId) : SameStructure e (e.initialCompute id) := by
  unfold Engine.initialCompute
  split
  · split
    · simp only
      split <;> exact ⟨rfl, rfl, rfl, rfl, rfl, rfl⟩
    · exact .refl e
  · exact .refl e

theorem finishActivation (h : SameStructure e e') (id : NodeId) (kind : NodeKind) :
    SameStructure (e.finishActivation id kind) (e'.finishActivation id kind) := by
  cases kind with
  | source => exact h.invokeActivate id
  | compute => exact ((initialCompute e id).symm.trans h).trans (initialCompute e' id)
  | sink => exact h
  | asyncCompute => exact h

theorem activateNode (n : ℕ) (id : NodeId) (h : SameStructure e e') :
    SameStructure (Engine.activateNode n id e) (Engine.activateNode n id e') := by
  induction n generalizing id e e' with
  | zero => exact h
  | succ n ih =>
    unfold Engine.activateNode
    rw [h.entries, h.active]
    split
    · exact h
    · cases e.graph.entries.get id with
      | none => exact h
      | some entry =>
        exact ((h.markActive id entry.deps).foldl (fun dep _ _ h' => ih dep h')
          entry.deps).finishActivation id entry.kind

theorem activateSink (h : SameStructure e e') (id : NodeId) :
    SameStructure (e.activateSink id) (e'.activateSink id) := by
  have hd := h.drainPendingRemovals
  unfold Engine.activateSink Engine.activate
  rw [hd.entries]
  exact hd.activateNode _ id

/-! ## Registrations -/

theorem registerAll (h : SameStructure e e') (descs : List (NodeDescriptor V)) :
    SameStructure (e.registerAll descs) (e'.registerAll descs) := by
  refine ⟨?_, h.topology, h.active, h.guards, h.errorStrategies, h.pendingRemovals⟩
  exact FinMap.ext fun id => by rw [get_registerAll, get_registerAll, h.entries]

theorem activateIfSink (h : SameStructure e e') (id : NodeId) :
    SameStructure (e.activateIfSink id) (e'.activateIfSink id) := by
  unfold Engine.activateIfSink
  rw [h.entries]
  split
  · split
    · exact h.activateSink id
    · exact h
  · exact h

end SameStructure

end Engine

end ReactiveGraph
