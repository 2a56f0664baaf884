import ReactiveGraph.Proof.Representation
import ReactiveGraph.Proof.Writes

/-!
# Values of nodes that are gone

A node that is removed takes its value with it. A value that was sent to it, or computed for it by a
task, may still be on its way. The next cycle removes first and receives afterwards, and stores
whatever it receives, for a registered node or not. That is the only way in which the store comes to
hold the value of a node that is not there: it holds none, after every cycle and at any other time,
exactly when each cycle receives values for registered nodes only.

**Where the condition stands.** It is one on the state before a cycle, with the removals still in
the queue: every id with a value in one of the two channels is registered, and is held against
everything in the queue, so the cycle's own removals will leave it. It does not look at the store,
or at what the cycle does.

That sends go to registered nodes is not enough. `lateValue` sends to a node that is there and drops
its handle afterwards; the value then waits in the channel while the node goes, and is stored under
its id. If the id is registered again, the value is found under it, and a compute node that is
activated above it takes it for current.

Everything but cycles is covered by the rule for calls (`NoLeftovers.stable`): activation gives
values to nodes that are registered, and removals take them.
-/

namespace ReactiveGraph

variable {V : Type*}

namespace Engine

variable {e e' : Engine V}

/-- Every id that has a value is registered. The invariant; the opposite is a value that nothing in
the engine will ever take away, unless the id is registered and removed once more. -/
def NoLeftovers (e : Engine V) : Prop :=
  ∀ id, e.graph.valueStore.contains id → id ∈ e.graph.entries.keys

instance (e : Engine V) : Decidable e.NoLeftovers :=
  decidable_of_iff (∀ id ∈ e.graph.valueStore.values.keys, id ∈ e.graph.entries.keys) <|
    forall_congr' fun _ => imp_congr_left FinMap.mem_keys

theorem NoLeftovers.new : (new : Engine V).NoLeftovers := fun id h =>
  absurd h (by simp [Engine.new, Graph.new, ValueStore.contains, ValueStore.new])

/-- Finishing an activation gives a value to no other node. -/
theorem contains_finishActivation {id id' : NodeId} {kind : NodeKind} (hne : id' ≠ id) :
    (e.finishActivation id kind).graph.valueStore.contains id' ↔
      e.graph.valueStore.contains id' := by
  rw [ValueStore.contains_iff, ValueStore.contains_iff, store_finishActivation_of_ne e kind hne]

/-- **Apart from cycles nothing leaves a value behind.** One case for each of the things a call is
made of. -/
theorem NoLeftovers.stable : Stable (NoLeftovers (V := V)) where
  lower e id entry h hentry _ id' hid' := by
    show id' ∈ (e.graph.entries.insert id _).keys
    rw [FinMap.keys_insert]
    exact Finset.mem_insert_of_mem (h id' hid')
  remove e id entry h hentry _ id' hid' := by
    -- A node leaves the entries and the store together.
    obtain ⟨value, hvalue⟩ := ValueStore.contains_iff.mp hid'
    obtain ⟨hne, hget⟩ := ValueStore.getById_remove_eq_some.mp hvalue
    show id' ∈ (e.graph.entries.remove id).keys
    rw [FinMap.keys_remove]
    exact Finset.mem_erase_of_ne_of_mem hne (h id' (ValueStore.contains_iff.mpr ⟨value, hget⟩))
  mark _ _ _ h _ _ := h
  finish e id entry h _ hentry id' hid' := by
    rw [(sameRest_finishActivation e id entry.kind).entries]
    by_cases hid : id' = id
    · rw [hid]
      exact FinMap.mem_keys_of_get hentry
    · exact h id' ((contains_finishActivation hid).mp hid')
  register e id kind deps nodeImpl h id' hid' := by
    simp only [Graph.valueStore_registerNode] at hid'
    rw [FinMap.mem_keys, Graph.get_registerNode]
    split
    · rfl
    · exact FinMap.mem_keys.mp (h id' hid')
  other e e' h hs id hid := by
    rw [hs.entries]
    rw [hs.store] at hid
    exact h id hid

/-- **A cycle leaves values behind when it receives some for nodes that are not registered.** In
both directions: what it computes it stores for registered nodes, and what it has received it never
removes. -/
theorem NoLeftovers.runCycleImpl_iff (h : e.NoLeftovers) (o : CycleOrder) (parallel : Bool) :
    (runCycleImpl o parallel e).NoLeftovers ↔ e.updated ⊆ e.graph.entries.keys := by
  have hcontains : ∀ id, id ∉ e.graph.entries.keys →
      ((runCycleImpl o parallel e).graph.valueStore.contains id ↔ id ∈ e.updated) := by
    intro id hid
    rw [ValueStore.contains_iff,
      getById_runCycleImpl_of_none o parallel (FinMap.notMem_keys.mp hid), ← ValueStore.contains_iff,
      contains_received, or_iff_right fun hc => hid (h id hc)]
  constructor
  · intro hno id hid
    by_contra hreg
    have hmem := hno id ((hcontains id hreg).mpr hid)
    rw [(sameFrame_runCycleImpl o parallel e).entries] at hmem
    exact hreg hmem
  · intro hsub id hid
    rw [(sameFrame_runCycleImpl o parallel e).entries]
    by_contra hreg
    exact hreg (hsub ((hcontains id hreg).mp hid))

end Engine

open Engine

/-! ## Runs -/

/-- When a cycle begins no values are waiting, in either channel, but those of registered nodes that
are held against everything in the removal queue. Asked before the cycle's own removals. -/
def Call.Receives (s : Session V) (c : Call V) : Prop :=
  c.cycle.isSome → ∀ id ∈ s.engine.updated, id ∈ s.engine.graph.entries.keys ∧
    RefCount.Held s.engine.pendingRemovals.flatten s.engine.graph.entries id

/-- The call, if it is a cycle, leaves no value behind. -/
def Call.LeavesNothing (s : Session V) (c : Call V) : Prop :=
  c.cycle.isSome → (s.apply c).engine.NoLeftovers

instance (s : Session V) (c : Call V) : Decidable (c.LeavesNothing s) :=
  inferInstanceAs (Decidable (c.cycle.isSome → (s.apply c).engine.NoLeftovers))

/-- The node a value is sent to. -/
def Call.addressee : Call V → Option NodeId
  | .send id _ | .update id _ => some id
  | _ => none

/-- It is registered when the value is sent. -/
def Call.Addressed (s : Session V) (c : Call V) : Prop :=
  ∀ id ∈ c.addressee, id ∈ s.engine.graph.entries.keys

instance (s : Session V) (c : Call V) : Decidable (c.Addressed s) :=
  inferInstanceAs (Decidable (∀ id ∈ c.addressee, id ∈ s.engine.graph.entries.keys))

namespace Session

/-- What every run keeps while each cycle receives values for registered nodes only. -/
structure Clean (s : Session V) : Prop where
  represented : s.engine.Represented
  noLeftovers : s.engine.NoLeftovers

/-- Removals do not touch the channels. -/
theorem updated_drainPendingRemovals (e : Engine V) :
    e.drainPendingRemovals.updated = e.updated := by
  have h := shrinks_drainPendingRemovals e
  rw [updated, updated, h.sourceRx, h.asyncManager]

theorem Clean.leavesNothing_iff {s : Session V} (h : s.Clean) (c : Call V) :
    c.LeavesNothing s ↔ c.Receives s := by
  refine imp_congr_right fun hc => ?_
  obtain ⟨⟨o, parallel⟩, hcycle⟩ := Option.isSome_iff_exists.mp hc
  rw [engine_apply_cycle hcycle,
    (NoLeftovers.stable.drainPendingRemovals h.noLeftovers).runCycleImpl_iff o parallel,
    updated_drainPendingRemovals]
  exact forall₂_congr fun id _ => mem_keys_drainPendingRemovals h.represented.counted

theorem Clean.apply {s : Session V} (h : s.Clean) {c : Call V} (hc : c.Receives s) :
    (s.apply c).Clean where
  represented := represented_apply h.represented c
  noLeftovers := by
    refine engine_apply_induction NoLeftovers.stable c h.noLeftovers fun o parallel hcycle _ => ?_
    rw [← engine_apply_cycle hcycle]
    exact (h.leavesNothing_iff c).mpr hc (by rw [hcycle]; rfl)

theorem Clean.init : (init : Session V).Clean := ⟨.new, .new⟩

end Session

/-- **No value survives its node exactly when every cycle receives values for registered nodes
only**: then after every cycle, and in every other state of the run, each id that has a value is
registered.

Over every run of calls, with sends to anything. The first part is about the states after cycles,
where leftovers arise, and is an equivalence for the run as a whole. -/
theorem leftovers_iff_receives (calls : List (Call V)) :
    (Runs.AllSteps Session.apply (fun s c => c.LeavesNothing s) Session.init calls ↔
      Runs.AllSteps Session.apply (fun s c => c.Receives s) Session.init calls) ∧
    (Runs.AllSteps Session.apply (fun s c => c.Receives s) Session.init calls →
      Runs.Always Session.apply (fun s => s.engine.NoLeftovers) Session.init calls) := by
  refine ⟨Runs.allSteps_iff_of_invariant (I := Session.Clean)
    (fun s c hs => hs.leavesNothing_iff c) (fun s c hs hc => hs.apply hc) .init, fun h => ?_⟩
  exact Runs.always_of_invariant (I := Session.Clean) (fun s c hs hc => hs.apply hc)
    (fun _ hs => hs.noLeftovers) .init h

/-! ## A value sent just before a drop -/

open Sample

/-- A source and a sink are merged, a value is sent to the source, the handle is dropped. The cycle
removes both nodes, and then stores the value. A compute node merged later under a new handle, with
the source, is computed from it though nothing has been sent to the new source. -/
def lateValue : List (Call ℕ) :=
  [.merge [node .source 0 [], node .sink 1 [0]], .send (nodeId 0) 5, .dropHandle 0,
    .runCycle default]

theorem leftover_after_drop :
    Runs.AllSteps Session.apply (fun s c => c.Addressed s) Session.init lateValue ∧
    ¬ Runs.AllSteps Session.apply (fun s c => c.LeavesNothing s) Session.init lateValue ∧
    (Session.run lateValue).engine.graph.valueStore.getById (nodeId 0) = some 5 ∧
    (Session.run (lateValue ++ [.merge [node .source 0 [], node .compute 2 [0], node .sink 1 [2]]])
      ).engine.graph.valueStore.getById (nodeId 2) = some 5 := by
  exact ⟨by decide +kernel, by decide +kernel, by decide +kernel, by decide +kernel⟩

end ReactiveGraph
