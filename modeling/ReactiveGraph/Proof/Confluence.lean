import ReactiveGraph.Proof.World

/-!
# The order of removals

Two deactivations do not commute step by step: a node may lose its last reference in the middle of
the cascade of another. But which nodes go, and what the others still count, does not depend on the
order of the requests (`RefCount.release_perm`), and everything else in the engine is what the
removed nodes leave of it (`Pruned`): an engine pruned down to given entries is one engine, whatever
the way there.

**Two ideas, then.** The library says of a list of requests, in any order, which keys survive: the
largest set that is safe against the requests and against the links from outside. Order does not
occur in that. And `Pruned.unique` says that the engine has nothing besides its entries that could
remember the order: guards, strategies, values, both edge maps and the active set are cut down to
what has survived.

Of the edge maps this is least obvious. A node that goes leaves the lists of its dependencies, and
its own list of dependents goes with it, also when those dependents stay. `Pruned.dependents` says
what a list of dependents is in the end, in terms of who is gone, with no word on who went first.

The one hypothesis is that every registered node is counted at least once, which holds in every
state a session can reach. Cyclic references are covered: a request for one node of a ring takes it
and, through the ring, itself again, to the same end from wherever it is begun.
-/

namespace ReactiveGraph

namespace Engine

variable {V : Type*} {e e' e₁ e₂ : Engine V}

/-! ## Everything follows the entries -/

/-- `e'` is what is left of `e` when the nodes that are gone are taken out of every map. All fields
of the engine are spoken of, here and in `Shrinks`. -/
structure Pruned (e e' : Engine V) : Prop extends Shrinks e e' where
  guards : ∀ id, id ∈ e'.guards ↔ id ∈ e.guards ∧ ¬ (Removed e e' id ∧ HasKind e.graph id .source)
  errorStrategies : ∀ id, e'.errorStrategies.get id =
    if Removed e e' id then none else e.errorStrategies.get id
  /-- A node that is gone has left the lists of its dependencies, not the lists of others. -/
  dependents : ∀ u, e'.topology.dependents.get u = if Removed e e' u then none
    else (e.topology.dependents.get u).map
      (List.filter fun v => ¬ (Removed e e' v ∧ u ∈ e.topology.depsOf v))
  metrics : e'.metrics = e.metrics
  pendingRemovals : e'.pendingRemovals = e.pendingRemovals

theorem not_removed_self (e : Engine V) (id : NodeId) : ¬ Removed e e id := fun h => h.2 h.1

theorem Pruned.refl (e : Engine V) : Pruned e e where
  toShrinks := .refl e
  guards id := by simp [not_removed_self]
  errorStrategies id := by rw [if_neg (not_removed_self e id)]
  dependents u := by
    rw [if_neg (not_removed_self e u)]
    cases e.topology.dependents.get u <;> simp [not_removed_self]
  metrics := rfl
  pendingRemovals := rfl

theorem Pruned.lower (h : Pruned e e') {id : NodeId} {entry : NodeEntry V}
    (hentry : e'.graph.entries.get id = some entry) (k : ℕ) :
    Pruned e (e'.setEntries (e'.graph.entries.insert id { entry with refCount := k })) where
  toShrinks := h.toShrinks.lower hentry k
  guards x := by rw [removed_lower hentry k]; exact h.guards x
  errorStrategies x := by simp only [removed_lower hentry k]; exact h.errorStrategies x
  dependents u := by simp only [removed_lower hentry k]; exact h.dependents u
  metrics := h.metrics
  pendingRemovals := h.pendingRemovals

/-- The kind of a node that is still there. -/
theorem Shrinks.hasKind (h : Shrinks e e') {id : NodeId} {entry : NodeEntry V}
    (hentry : e'.graph.entries.get id = some entry) (kind : NodeKind) :
    HasKind e.graph id kind ↔ entry.kind = kind := by
  obtain ⟨entry₀, hentry₀, hkind, -⟩ := h.entries id entry hentry
  constructor
  · rintro ⟨entry₁, hentry₁, rfl⟩
    rw [hkind, Option.some.inj (hentry₀.symm.trans hentry₁)]
  · rintro rfl
    exact ⟨entry₀, hentry₀, hkind.symm⟩

theorem Pruned.remove (h : Pruned e e') {id : NodeId} {entry : NodeEntry V}
    (hentry : e'.graph.entries.get id = some entry) :
    Pruned e (e'.removeEntry id entry.kind) := by
  have hid : id ∈ e'.graph.entries.keys := FinMap.mem_keys_of_get hentry
  have hremoved := removed_removeEntry h.keys hid entry.kind
  have hstill : ¬ Removed e e' id := fun hr => hr.2 hid
  refine ⟨h.toShrinks.remove hentry, fun x => ?_, fun x => ?_, fun u => ?_, h.metrics,
    h.pendingRemovals⟩
  · have hguards : x ∈ (e'.removeEntry id entry.kind).guards ↔
        x ∈ e'.guards ∧ ¬ (x = id ∧ entry.kind = .source) := by
      show x ∈ (if entry.kind = .source then e'.guards.erase id else e'.guards) ↔ _
      split
      · next hsource => simp [hsource, and_comm]
      · next hsource => simp [hsource]
    rw [hguards, h.guards, hremoved]
    by_cases hx : x = id
    · subst hx
      simp [hstill, h.hasKind hentry]
    · simp [hx]
  · have hget : (e'.removeEntry id entry.kind).errorStrategies.get x =
        if x = id then none else e'.errorStrategies.get x := FinMap.get_remove _ _ _
    rw [hget, h.errorStrategies]
    simp only [hremoved]
    by_cases hx : x = id
    · simp [hx]
    · simp [hx]
  · have hget := Topology.get_dependents_removeNode (t := e'.topology) id u
    have hdeps : e'.topology.depsOf id = e.topology.depsOf id := by
      rw [Topology.depsOf, Topology.depsOf, h.deps id hstill]
    refine Eq.trans hget ?_
    rw [h.dependents u, hdeps]
    simp only [hremoved]
    by_cases hu : u = id
    · simp [hu]
    · by_cases hr : Removed e e' u
      · simp [hu, hr]
      · -- The lists of the node's dependencies are filtered once more.
        simp only [hu, hr, or_false, if_false]
        cases e.topology.dependents.get u with
        | none => simp
        | some l =>
          by_cases hmem : u ∈ e.topology.depsOf id
          · simp only [hmem, if_true, Option.map_some, List.filter_filter]
            refine congrArg some (List.filter_congr fun v _ => ?_)
            by_cases hv : v = id <;> simp [hv, hmem]
          · simp only [hmem, if_false, Option.map_some]
            refine congrArg some (List.filter_congr fun v _ => ?_)
            by_cases hv : v = id
            · simp [hv, hmem, hstill]
            · simp [hv]

/-- **Pruned down to the same entries, an engine is the same.** Field by field, each being
determined by the old engine and by who is gone. -/
theorem Pruned.unique (h₁ : Pruned e e₁) (h₂ : Pruned e e₂)
    (hentries : e₁.graph.entries = e₂.graph.entries) : e₁ = e₂ := by
  -- who is gone can be told from the entries, which are the same
  have hremoved : ∀ id, Removed e e₁ id ↔ Removed e e₂ id := fun id => by
    unfold Removed
    rw [hentries]
  have hstore : e₁.graph.valueStore = e₂.graph.valueStore := ValueStore.ext_getById fun id => by
    by_cases hr : Removed e e₁ id
    · rw [h₁.store_removed id hr, h₂.store_removed id ((hremoved id).mp hr)]
    · rw [h₁.store id hr, h₂.store id (mt (hremoved id).mpr hr)]
  have hdeps : e₁.topology.deps = e₂.topology.deps := FinMap.ext fun id => by
    by_cases hr : Removed e e₁ id
    · rw [h₁.deps_removed id hr, h₂.deps_removed id ((hremoved id).mp hr)]
    · rw [h₁.deps id hr, h₂.deps id (mt (hremoved id).mpr hr)]
  have hdependents : e₁.topology.dependents = e₂.topology.dependents := FinMap.ext fun u => by
    simp only [h₁.dependents u, h₂.dependents u, hremoved]
  have hguards : e₁.guards = e₂.guards := by
    ext id
    rw [h₁.guards id, h₂.guards id, hremoved id]
  have hactive : e₁.active = e₂.active := by
    ext id
    rw [h₁.active id, h₂.active id, hremoved id]
  have hstrategies : e₁.errorStrategies = e₂.errorStrategies := FinMap.ext fun id => by
    simp only [h₁.errorStrategies id, h₂.errorStrategies id, hremoved]
  have hrx := h₁.sourceRx.trans h₂.sourceRx.symm
  have hbridge := h₁.bridge.trans h₂.bridge.symm
  have hasync := h₁.asyncManager.trans h₂.asyncManager.symm
  have heffects := h₁.effects.trans h₂.effects.symm
  have hmetrics := h₁.metrics.trans h₂.metrics.symm
  have hpending := h₁.pendingRemovals.trans h₂.pendingRemovals.symm
  -- every field of the one engine is that of the other
  clear hremoved h₁ h₂
  obtain ⟨⟨_, _, _, _⟩, ⟨_, _⟩, _, _, _, _, _, _, _⟩ := e₁
  obtain ⟨⟨_, _, _, _⟩, ⟨_, _⟩, _, _, _, _, _, _, _⟩ := e₂
  cases hentries; cases hstore; cases hdeps; cases hdependents; cases hguards; cases hactive
  cases hstrategies; cases hrx; cases hbridge; cases hasync; cases heffects; cases hmetrics
  cases hpending
  rfl

/-! ## Deactivation prunes -/

theorem pruned_deactivateNode (n : ℕ) (id : NodeId) : Pruned e (deactivateNode n id e) :=
  deactivateNode_induction (P := Pruned e) (fun _ _ _ h hg _ => h.lower hg _)
    (fun _ _ _ h hg _ => h.remove hg) n id (.refl e)

theorem pruned_foldl_deactivate (ids : List NodeId) : Pruned e (ids.foldl deactivate e) :=
  foldl_deactivate_induction (P := Pruned e) (fun _ _ _ h hg _ => h.lower hg _)
    (fun _ _ _ h hg _ => h.remove hg) ids (.refl e)

/-- **More fuel than one for each entry changes nothing.** So the recursion of the source, which has
none, is what the model computes. -/
theorem deactivateNode_of_le {n : ℕ} (id : NodeId) (hn : e.graph.entries.keys.card ≤ n) :
    deactivateNode n id e = e.deactivate id :=
  (pruned_deactivateNode n id).unique (pruned_deactivateNode _ id) <| by
    rw [entries_deactivateNode hn, entries_deactivate]

/-- Deactivating is the same in any order. The entries by the library, the rest by
`Pruned.unique`. -/
theorem foldl_deactivate_perm (hpos : RefCount.Positive e.graph.entries) {ids ids' : List NodeId}
    (h : ids.Perm ids') : ids.foldl deactivate e = ids'.foldl deactivate e :=
  (pruned_foldl_deactivate ids).unique (pruned_foldl_deactivate ids') <| by
    rw [entries_foldl_deactivate, entries_foldl_deactivate, RefCount.release_perm h hpos]

/-- The drain is one pass over all that is in the queue. -/
theorem drainPendingRemovals_eq_foldl (e : Engine V) : e.drainPendingRemovals =
    (e.pendingRemovals.flatMap List.reverse).foldl deactivate { e with pendingRemovals := [] } := by
  unfold drainPendingRemovals
  generalize { e with pendingRemovals := [] } = e₁
  induction e.pendingRemovals generalizing e₁ with
  | nil => rfl
  | cons nodeIds queue ih => rw [List.foldl_cons, ih, List.flatMap_cons, List.foldl_append, release]

/-- Dropped handles stand in the queue in the order they were dropped in, but for those of nothing. -/
theorem foldl_dropHandle (handles : List SubgraphHandle) : handles.foldl dropHandle e =
    { e with
      pendingRemovals := e.pendingRemovals ++
        (handles.map SubgraphHandle.nodeIds).filter (· ≠ []) } := by
  induction handles generalizing e with
  | nil => simp
  | cons handle handles ih =>
    rw [List.foldl_cons, ih, dropHandle]
    by_cases hnil : handle.nodeIds = []
    · simp [hnil]
    · simp [hnil]

/-- **Removal is confluent.** Deactivating the nodes of a list gives the same engine in any order,
and so does dropping a number of handles, in any order, and draining.

The engines are equal as a whole, and not only in what is registered. `Positive` excludes entries
with a count of zero, which no registration makes. -/
theorem removal_confluent (e : Engine V) (hpos : RefCount.Positive e.graph.entries) :
    (∀ ids ids' : List NodeId, ids.Perm ids' → ids.foldl deactivate e = ids'.foldl deactivate e) ∧
      ∀ handles handles' : List SubgraphHandle, handles.Perm handles' →
        (handles.foldl dropHandle e).drainPendingRemovals =
          (handles'.foldl dropHandle e).drainPendingRemovals := by
  refine ⟨fun ids ids' => foldl_deactivate_perm hpos, fun handles handles' h => ?_⟩
  rw [foldl_dropHandle, foldl_dropHandle, drainPendingRemovals_eq_foldl,
    drainPendingRemovals_eq_foldl]
  refine foldl_deactivate_perm (e := { e with pendingRemovals := [] }) hpos ?_
  exact (((h.map _).filter _).append_left _).flatMap_right _

open Sample in
/-- A source, two nodes that read each other, and a sink, activated. -/
def ring : Engine ℕ := ((new : Engine ℕ).registerAll [node .source 0 [], node .compute 1 [0, 2],
  node .compute 2 [1], node .sink 3 [2, 2], node .source 0 []]).activate (nodeId 3)

theorem positive_ring : RefCount.Positive ring.graph.entries := by
  rw [ring, (sameRest_activate _ _).entries]
  exact positive_registerAll Ok.new.positive _

open Sample in
theorem removal_confluent_ring :
    [nodeId 3, nodeId 0, nodeId 1].foldl deactivate ring =
        [nodeId 1, nodeId 3, nodeId 0].foldl deactivate ring ∧
      ([⟨[nodeId 3]⟩, ⟨[]⟩, ⟨[nodeId 0, nodeId 0]⟩].foldl dropHandle ring).drainPendingRemovals =
        ([⟨[nodeId 0, nodeId 0]⟩, ⟨[nodeId 3]⟩, ⟨[]⟩].foldl dropHandle ring).drainPendingRemovals :=
  have h := removal_confluent ring positive_ring
  ⟨h.1 _ _ (by decide), h.2 _ _ (by decide)⟩

end Engine

end ReactiveGraph
