import ReactiveGraph.Proof.Cycle

/-!
# What a cycle writes

A cycle writes what it has received and then, whichever executor runs, results of registered compute
nodes, each under the node's id; under one of the error strategies it takes a value away. Nothing is
said here about which nodes run, or when: a property of the store that survives these two survives
the cycle (`Respects.runCycleImpl`).

This is the rule for properties that hold of every value in the store on its own, such as that it
has the type that its node's references carry, or that a node with a value is of a certain kind.
They need neither dependency order nor purity: a result counts in whatever store `compute` was
called, and the rule lets that store be any. For properties that relate a node's value to those of
its dependencies it is of no use, and `Cycle.lean` and `Settled.lean` have the equations.

It holds for both executors, of any engine, with cycles in its graph and with async nodes among the
dirty ones, and it is the only place where the two are treated alike without looking at which nodes
they run.
-/

namespace ReactiveGraph

namespace Engine

variable {V : Type*} {e e' : Engine V} {Q : ValueStore V → Prop}

/-- `Q` survives the writes of registered nodes. A result is written for a compute node of the
registry, as its `compute` gave it in some store; a value is removed only for a registered node. -/
structure Respects (entries : FinMap NodeId (NodeEntry V)) (Q : ValueStore V → Prop) : Prop where
  write : ∀ store id entry store' value, Q store → entries.get id = some entry →
    entry.kind = .compute → entry.nodeImpl.compute entry.deps store' = some value →
      Q (store.setById id value)
  clear : ∀ store id entry, Q store → entries.get id = some entry → Q (store.remove id)

namespace Respects

theorem nodeStore (h : Respects e.graph.entries Q) (id : NodeId) {store : ValueStore V}
    (hs : Q store) : Q (e.nodeStore id store) := by
  unfold Engine.nodeStore
  split
  · next entry hentry =>
    split
    · next hkind =>
      split
      · next result hresult => exact h.write store id entry store result hs hentry hkind hresult
      · split
        · exact h.clear store id entry hs hentry
        · exact hs
    · exact hs
  · exact hs

theorem storeAfter (h : Respects e.graph.entries Q) (l : List NodeId) {store : ValueStore V}
    (hs : Q store) : Q (e.storeAfter l store) := by
  induction l generalizing store with
  | nil => exact hs
  | cons id l ih => exact ih (h.nodeStore id hs)

theorem executeSingle {entries : FinMap NodeId (NodeEntry V)} (h : Respects entries Q) (id : NodeId)
    {store store' : ValueStore V} {value : V} (hs : Q store)
    (hv : (Scheduler.executeSingle entries store' id).1 = some value) :
    Q (store.setById id value) := by
  unfold Scheduler.executeSingle at hv
  split at hv
  · exact absurd hv (by simp)
  · next entry hentry =>
    split at hv
    · next hkind => exact h.write store id entry store' value hs hentry hkind hv
    · exact absurd hv (by simp)
    · exact absurd hv (by simp)

theorem wave {entries : FinMap NodeId (NodeEntry V)} (h : Respects entries Q) (t : Topology)
    (nodes : List NodeId) {st : Scheduler.WaveState V} (hs : Q st.store) :
    Q (Scheduler.wave entries t nodes st).store := by
  have hfold : ∀ (l : List NodeId) (st' : Scheduler.WaveState V), Q st'.store →
      Q ((l.map fun id => (id, (Scheduler.executeSingle entries st.store id).1)).foldl
        (Scheduler.writeResult t) st').store := by
    intro l
    induction l with
    | nil => exact fun st' hst => hst
    | cons id l ih =>
      intro st' hst
      refine ih _ ?_
      cases hv : (Scheduler.executeSingle entries st.store id).1 with
      | none =>
        simp only [Scheduler.writeResult, hv]
        exact hst
      | some value =>
        simp only [Scheduler.writeResult, hv]
        exact h.executeSingle id hst hv
  unfold Scheduler.wave
  simp only [List.map_map]
  exact hfold nodes _ hs

theorem executeParallel {entries : FinMap NodeId (NodeEntry V)} (h : Respects entries Q)
    (walks : ℕ → IterOrder) (t : Topology) (sorted : List NodeId) (dirty : Finset NodeId)
    {store : ValueStore V} (hs : Q store) :
    Q (Scheduler.executeParallel walks entries store t sorted dirty).1 := by
  have hloop : ∀ (n : ℕ) (st : Scheduler.WaveState V), Q st.store →
      Q (Scheduler.loop walks entries t n st).store := by
    intro n
    induction n with
    | zero => exact fun st hst => hst
    | succ n ih =>
      intro st hst
      rw [Scheduler.loop]
      split
      · exact hst
      · split
        · exact hst
        · exact ih _ (h.wave t _ hst)
  exact hloop sorted.length _ hs

/-- **The rule for the writes of a cycle.** What holds of the store that has received everything
holds of the store in the end. Receiving is not part of it: what was sent is a matter of the run and
not of the cycle. -/
theorem runCycleImpl (h : Respects e.graph.entries Q) (o : CycleOrder) (parallel : Bool)
    (hs : Q e.received.graph.valueStore) :
    Q (runCycleImpl o parallel e).graph.valueStore := by
  cases parallel with
  | false =>
    rw [(runCycleImpl_sequential o e).1]
    have hr : Respects e.received.graph.entries Q := by
      rw [(sameFrame_received e).entries]
      exact h
    exact hr.storeAfter (e.sortedOf o) hs
  | true =>
    obtain ⟨-, -, hstore, -⟩ := runCycleImpl_parallel o e
    rw [hstore]
    exact h.executeParallel o.waves e.topology _ _ hs

end Respects

/-- An unregistered node has the value that was received for it, or the one it had. -/
theorem getById_runCycleImpl_of_none (o : CycleOrder) (parallel : Bool) {id : NodeId}
    (h : e.graph.entries.get id = none) : (runCycleImpl o parallel e).graph.valueStore.getById id =
      e.received.graph.valueStore.getById id := by
  have hne : ∀ id' entry, e.graph.entries.get id' = some entry → id ≠ id' := by
    rintro id' entry hentry rfl
    rw [h] at hentry
    exact absurd hentry (by simp)
  refine Respects.runCycleImpl (Q := fun store => store.getById id =
    e.received.graph.valueStore.getById id) ⟨?_, ?_⟩ o parallel rfl
  · intro store id' entry store' value hs hentry _ _
    exact (ValueStore.getById_setById_of_ne _ _ (hne id' entry hentry)).trans hs
  · intro store id' entry hs hentry
    exact (ValueStore.getById_remove_of_ne _ (hne id' entry hentry)).trans hs

/-- What has been received for a node is there, and nothing that was there has gone. -/
theorem contains_receive {updates : List (NodeId × V)} {id : NodeId} {store : ValueStore V} :
    (receive store updates).contains id ↔ store.contains id ∨ id ∈ updates.map Prod.fst := by
  induction updates generalizing store with
  | nil => simp [receive]
  | cons u updates ih =>
    have hcons : receive store (u :: updates) = receive (store.setById u.1 u.2) updates := rfl
    have hset : (store.setById u.1 u.2).contains id ↔ store.contains id ∨ id = u.1 := by
      rw [ValueStore.contains_iff, ValueStore.contains_iff]
      simp only [ValueStore.getById_setById]
      by_cases hid : id = u.1 <;> simp [hid]
    rw [hcons, ih, hset, List.map_cons, List.mem_cons, or_assoc]

theorem contains_received {id : NodeId} : e.received.graph.valueStore.contains id ↔
    e.graph.valueStore.contains id ∨ id ∈ e.updated := by
  rw [store_received, contains_receive, updated, List.mem_toFinset, List.map_append]

end Engine

end ReactiveGraph
