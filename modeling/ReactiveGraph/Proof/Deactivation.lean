import ReactiveGraph.Lib.RefCount
import ReactiveGraph.Proof.Activation

/-!
# What deactivation does

`deactivateNode` does two things to the engine, over and over: it takes one from a reference count,
or it removes a node and goes on to the node's dependencies. Everything that is true of both is true
of a deactivation (`deactivateNode_induction`), whatever the fuel.

Which nodes go is decided by the reference counts alone: with fuel for every registered node, the
entries afterwards are those of `RefCount.release` (`entries_release`), and the accounts of that
library apply. The rest of the engine follows the entries (`Shrinks`): a node that is gone has lost
its value, its edges and its place among the active, and every other node has kept them.

So a question about a removal is answered in two parts. Who is gone is a question about counts: the
library's `Held`, a least fixpoint, answers it without regard to the order in which the cascade
goes. What that means for values, topology and activity is read off `Shrinks`, which mentions
neither counts nor the cascade.

**Edges.** A removal keeps `AtMost`, and on the nodes that stay it keeps both sides of an edge alike
(`LiveExact`): the edges lost are those into nodes that are gone. This is all that a cycle after a
removal needs, and it holds although a removed node may still be listed as a dependency of nodes
that depended on it.

Nothing is assumed of the graph. Cycles of references end because an entry is gone before its
dependencies are released, and dependencies that are not registered are passed over.
-/

namespace ReactiveGraph

namespace Engine

variable {V : Type*} {e e' : Engine V}

/-! ## The rule -/

/-- **The rule for deactivation.** Two steps: a count above one is lowered, anything else is
removed. In both the node is registered, with the entry that is named. The fuel does not matter,
since a recursion that is cut short has made some of the same steps. -/
theorem deactivateNode_induction {P : Engine V → Prop}
    (lower : ∀ e id entry, P e → e.graph.entries.get id = some entry → 0 < entry.refCount - 1 →
      P (e.setEntries (e.graph.entries.insert id { entry with refCount := entry.refCount - 1 })))
    (remove : ∀ e id entry, P e → e.graph.entries.get id = some entry →
      ¬ 0 < entry.refCount - 1 → P (e.removeEntry id entry.kind))
    (n : ℕ) (id : NodeId) {e : Engine V} (h : P e) : P (deactivateNode n id e) := by
  induction n generalizing id e with
  | zero => exact h
  | succ n ih =>
    rw [deactivateNode]
    split
    · exact h
    · next entry hentry =>
      split
      · next hpos => exact lower e id entry h hentry hpos
      · next hpos =>
        have hrem := remove e id entry h hentry hpos
        generalize e.removeEntry id entry.kind = e₁ at hrem
        induction entry.deps generalizing e₁ with
        | nil => exact hrem
        | cons dep deps ihd => exact ihd _ (ih dep hrem)

theorem foldl_deactivate_induction {P : Engine V → Prop}
    (lower : ∀ e id entry, P e → e.graph.entries.get id = some entry → 0 < entry.refCount - 1 →
      P (e.setEntries (e.graph.entries.insert id { entry with refCount := entry.refCount - 1 })))
    (remove : ∀ e id entry, P e → e.graph.entries.get id = some entry →
      ¬ 0 < entry.refCount - 1 → P (e.removeEntry id entry.kind))
    (ids : List NodeId) {e : Engine V} (h : P e) : P (ids.foldl deactivate e) := by
  induction ids generalizing e with
  | nil => exact h
  | cons id ids ih => exact ih (deactivateNode_induction lower remove _ id h)

theorem release_induction {P : Engine V → Prop}
    (lower : ∀ e id entry, P e → e.graph.entries.get id = some entry → 0 < entry.refCount - 1 →
      P (e.setEntries (e.graph.entries.insert id { entry with refCount := entry.refCount - 1 })))
    (remove : ∀ e id entry, P e → e.graph.entries.get id = some entry →
      ¬ 0 < entry.refCount - 1 → P (e.removeEntry id entry.kind))
    (nodeIds : List NodeId) {e : Engine V} (h : P e) : P (e.release nodeIds) :=
  foldl_deactivate_induction lower remove nodeIds.reverse h

/-- The same for the drain of the removal queue, for a property that does not look at the queue. -/
theorem drainPendingRemovals_induction {P : Engine V → Prop}
    (lower : ∀ e id entry, P e → e.graph.entries.get id = some entry → 0 < entry.refCount - 1 →
      P (e.setEntries (e.graph.entries.insert id { entry with refCount := entry.refCount - 1 })))
    (remove : ∀ e id entry, P e → e.graph.entries.get id = some entry →
      ¬ 0 < entry.refCount - 1 → P (e.removeEntry id entry.kind))
    (h : P { e with pendingRemovals := [] }) : P e.drainPendingRemovals := by
  unfold drainPendingRemovals
  generalize { e with pendingRemovals := [] } = e₁ at h
  induction e.pendingRemovals generalizing e₁ with
  | nil => exact h
  | cons ids rest ih => exact ih _ (release_induction lower remove ids h)

/-- An engine with nothing to drain is left as it is. -/
theorem drainPendingRemovals_of_nil (h : e.pendingRemovals = []) : e.drainPendingRemovals = e := by
  obtain ⟨graph, topology, guards, active, am, es, metrics, pending, effects⟩ := e
  obtain rfl : pending = [] := h
  rfl

theorem pendingRemovals_drainPendingRemovals (e : Engine V) :
    e.drainPendingRemovals.pendingRemovals = [] :=
  drainPendingRemovals_induction (P := fun e => e.pendingRemovals = []) (fun _ _ _ h _ _ => h)
    (fun _ _ _ h _ _ => h) rfl

/-! ## The entries -/

/-- **With enough fuel the entries are released as the reference counts say.** The recursion of the
source goes down one dependency after another, the library's takes from a list of what is still to
be released; both are folds of the same two operations on the entries. -/
theorem entries_deactivateNode {n : ℕ} {id : NodeId} (hn : e.graph.entries.keys.card ≤ n) :
    (deactivateNode n id e).graph.entries = RefCount.release [id] e.graph.entries := by
  induction n generalizing id e with
  | zero =>
    have hkeys : e.graph.entries.keys = ∅ := Finset.card_eq_zero.mp (by omega)
    have hnone : e.graph.entries.get id = none := FinMap.notMem_keys.mp (by simp [hkeys])
    rw [RefCount.release_of_none hnone, RefCount.release_nil]
    rfl
  | succ n ih =>
    rw [deactivateNode]
    split
    · next hnone => rw [RefCount.release_of_none hnone, RefCount.release_nil]
    · next entry hentry =>
      rw [RefCount.release_of_some hentry]
      split
      · next hpos => exact (if_pos hpos).trans (RefCount.release_nil _) |>.symm
      · next hpos =>
        refine Eq.trans ?_ (if_neg hpos).symm
        have hcard : (e.removeEntry id entry.kind).graph.entries.keys.card ≤ n := by
          have := FinMap.card_keys_remove_lt (FinMap.mem_keys_of_get hentry)
          have hrem : (e.removeEntry id entry.kind).graph.entries = e.graph.entries.remove id := rfl
          rw [hrem]
          omega
        have hlinks : Counted.links entry = entry.deps := rfl
        have hstart : (e.removeEntry id entry.kind).graph.entries = e.graph.entries.remove id := rfl
        rw [List.append_nil, hlinks, ← hstart]
        -- the cascade releases the dependencies one after the other
        generalize e.removeEntry id entry.kind = e₁ at hcard
        induction entry.deps generalizing e₁ with
        | nil => rw [RefCount.release_nil]; rfl
        | cons dep deps ihd =>
          have hstep : (deactivateNode n dep e₁).graph.entries =
              RefCount.release [dep] e₁.graph.entries := ih hcard
          have hcard' : (deactivateNode n dep e₁).graph.entries.keys.card ≤ n := by
            rw [hstep]
            exact (Finset.card_le_card (RefCount.keys_release_subset _ _)).trans hcard
          rw [List.foldl_cons, ihd _ hcard', hstep, ← RefCount.release_append,
            List.singleton_append]

theorem entries_deactivate (id : NodeId) :
    (e.deactivate id).graph.entries = RefCount.release [id] e.graph.entries :=
  entries_deactivateNode le_rfl

theorem entries_foldl_deactivate (ids : List NodeId) :
    (ids.foldl deactivate e).graph.entries = RefCount.release ids e.graph.entries := by
  induction ids generalizing e with
  | nil => rw [RefCount.release_nil]; rfl
  | cons id ids ih =>
    rw [List.foldl_cons, ih, entries_deactivate, ← RefCount.release_append, List.singleton_append]

theorem entries_release (nodeIds : List NodeId) :
    (e.release nodeIds).graph.entries = RefCount.release nodeIds.reverse e.graph.entries :=
  entries_foldl_deactivate nodeIds.reverse

/-- The drain releases the queued lists, each of them last first. One release of all of them
together: a drain does not look at where one handle ends and the next begins. -/
theorem entries_drainPendingRemovals (e : Engine V) : e.drainPendingRemovals.graph.entries =
    RefCount.release (e.pendingRemovals.flatMap List.reverse) e.graph.entries := by
  have hfold : ∀ (queue : List (List NodeId)) (e₁ : Engine V),
      (queue.foldl release e₁).graph.entries =
        RefCount.release (queue.flatMap List.reverse) e₁.graph.entries := by
    intro queue
    induction queue with
    | nil => exact fun e₁ => (RefCount.release_nil _).symm
    | cons nodeIds queue ih =>
      intro e₁
      rw [List.foldl_cons, ih, entries_release, List.flatMap_cons, RefCount.release_append]
  exact hfold e.pendingRemovals _

/-- **What a drain leaves registered** is what is held against all that is in the queue: by more
references than the queue and the removed nodes together take away. In this form the order of the
queue no longer shows. -/
theorem mem_keys_drainPendingRemovals (hpos : RefCount.Positive e.graph.entries) {id : NodeId} :
    id ∈ e.drainPendingRemovals.graph.entries.keys ↔ id ∈ e.graph.entries.keys ∧
      RefCount.Held e.pendingRemovals.flatten e.graph.entries id := by
  have hperm : (e.pendingRemovals.flatMap List.reverse).Perm e.pendingRemovals.flatten := by
    rw [← List.flatMap_id]
    exact .flatMap_left _ fun l _ => List.reverse_perm l
  rw [entries_drainPendingRemovals, RefCount.mem_release_iff hpos, RefCount.Held.perm_iff hperm]

/-! ## The rest follows the entries -/

/-- The node was registered in `e` and is not in `e'`. Between two engines of which one comes from
the other by a removal, this says all there is to say about a node. -/
def Removed (e e' : Engine V) (id : NodeId) : Prop :=
  id ∈ e.graph.entries.keys ∧ id ∉ e'.graph.entries.keys

instance (e e' : Engine V) (id : NodeId) : Decidable (Removed e e' id) :=
  inferInstanceAs (Decidable (_ ∧ _))

/-- Lowering a count removes nothing. -/
theorem removed_lower {id : NodeId} {entry : NodeEntry V}
    (hentry : e'.graph.entries.get id = some entry) (k : ℕ) (x : NodeId) :
    Removed e (e'.setEntries (e'.graph.entries.insert id { entry with refCount := k })) x ↔
      Removed e e' x := by
  have hkeys : (e'.setEntries
      (e'.graph.entries.insert id { entry with refCount := k })).graph.entries.keys
        = e'.graph.entries.keys := FinMap.keys_insert_of_mem _ (FinMap.mem_keys_of_get hentry)
  unfold Removed
  rw [hkeys]

theorem removed_removeEntry (hsub : e'.graph.entries.keys ⊆ e.graph.entries.keys) {id : NodeId}
    (hid : id ∈ e'.graph.entries.keys) (kind : NodeKind) (x : NodeId) :
    Removed e (e'.removeEntry id kind) x ↔ Removed e e' x ∨ x = id := by
  have hkeys : (e'.removeEntry id kind).graph.entries.keys = e'.graph.entries.keys.erase id :=
    FinMap.keys_remove _ _
  unfold Removed
  rw [hkeys, Finset.mem_erase]
  by_cases hx : x = id
  · subst hx
    simp [hsub hid]
  · simp [hx]

/-- `e'` is `e` after some nodes were removed and some counts lowered. Channels, tasks and effects
are untouched, so a value that is on its way to a removed node stays on its way. -/
structure Shrinks (e e' : Engine V) : Prop where
  entries : ∀ id entry', e'.graph.entries.get id = some entry' →
    ∃ entry, e.graph.entries.get id = some entry ∧ entry'.kind = entry.kind ∧
      entry'.deps = entry.deps ∧ entry'.nodeImpl = entry.nodeImpl
  active : ∀ id, id ∈ e'.active ↔ id ∈ e.active ∧ ¬ Removed e e' id
  deps : ∀ id, ¬ Removed e e' id → e'.topology.deps.get id = e.topology.deps.get id
  deps_removed : ∀ id, Removed e e' id → e'.topology.deps.get id = none
  store : ∀ id, ¬ Removed e e' id → e'.graph.valueStore.getById id = e.graph.valueStore.getById id
  store_removed : ∀ id, Removed e e' id → e'.graph.valueStore.getById id = none
  sourceRx : e'.graph.sourceRx = e.graph.sourceRx
  bridge : e'.graph.bridge = e.graph.bridge
  asyncManager : e'.asyncManager = e.asyncManager
  effects : e'.effects = e.effects

theorem Shrinks.refl (e : Engine V) : Shrinks e e where
  entries _ entry' h := ⟨entry', h, rfl, rfl, rfl⟩
  active _ := ⟨fun h => ⟨h, fun hr => hr.2 hr.1⟩, fun h => h.1⟩
  deps _ _ := rfl
  deps_removed _ h := absurd h.1 h.2
  store _ _ := rfl
  store_removed _ h := absurd h.1 h.2
  sourceRx := rfl
  bridge := rfl
  asyncManager := rfl
  effects := rfl

theorem Shrinks.keys (h : Shrinks e e') : e'.graph.entries.keys ⊆ e.graph.entries.keys := by
  intro id hid
  obtain ⟨entry', hentry'⟩ := FinMap.exists_get_of_mem_keys hid
  obtain ⟨entry, hentry, -⟩ := h.entries id entry' hentry'
  exact FinMap.mem_keys_of_get hentry

theorem Shrinks.lower (h : Shrinks e e') {id : NodeId} {entry : NodeEntry V}
    (hentry : e'.graph.entries.get id = some entry) (k : ℕ) :
    Shrinks e (e'.setEntries (e'.graph.entries.insert id { entry with refCount := k })) := by
  have hremoved := removed_lower (e := e) hentry k
  refine ⟨fun x entry' hx => ?_, fun x => ?_, fun x hx => ?_, fun x hx => ?_, fun x hx => ?_,
    fun x hx => ?_, h.sourceRx, h.bridge, h.asyncManager, h.effects⟩
  · have hget : (e'.graph.entries.insert id { entry with refCount := k }).get x = some entry' := hx
    obtain ⟨rfl, rfl⟩ | ⟨-, hget⟩ := FinMap.get_insert_eq_some.mp hget
    · exact h.entries x entry hentry
    · exact h.entries x entry' hget
  · rw [hremoved]; exact h.active x
  · rw [hremoved] at hx; exact h.deps x hx
  · rw [hremoved] at hx; exact h.deps_removed x hx
  · rw [hremoved] at hx; exact h.store x hx
  · rw [hremoved] at hx; exact h.store_removed x hx

theorem Shrinks.remove (h : Shrinks e e') {id : NodeId} {entry : NodeEntry V}
    (hentry : e'.graph.entries.get id = some entry) :
    Shrinks e (e'.removeEntry id entry.kind) := by
  have hremoved := removed_removeEntry h.keys (FinMap.mem_keys_of_get hentry) entry.kind
  refine ⟨fun x entry' hx => ?_, fun x => ?_, fun x hx => ?_, fun x hx => ?_, fun x hx => ?_,
    fun x hx => ?_, h.sourceRx, h.bridge, h.asyncManager, h.effects⟩
  · have hget : (e'.graph.entries.remove id).get x = some entry' := hx
    exact h.entries x entry' (FinMap.get_remove_eq_some.mp hget).2
  · have hact : x ∈ (e'.removeEntry id entry.kind).active ↔ x ≠ id ∧ x ∈ e'.active :=
      Finset.mem_erase
    rw [hact, hremoved, h.active x]
    tauto
  · rw [hremoved, not_or] at hx
    exact (FinMap.get_remove_of_ne _ hx.2).trans (h.deps x hx.1)
  · rw [hremoved] at hx
    have hget := FinMap.get_remove e'.topology.deps id x
    refine Eq.trans hget ?_
    split
    · rfl
    · next hne => exact h.deps_removed x (hx.resolve_right hne)
  · rw [hremoved, not_or] at hx
    exact (ValueStore.getById_remove_of_ne _ hx.2).trans (h.store x hx.1)
  · rw [hremoved] at hx
    refine Eq.trans (ValueStore.getById_remove e'.graph.valueStore id x) ?_
    split
    · rfl
    · next hne => exact h.store_removed x (hx.resolve_right hne)

theorem shrinks_deactivate (e : Engine V) (id : NodeId) : Shrinks e (e.deactivate id) :=
  deactivateNode_induction (P := Shrinks e) (fun _ _ _ h hg _ => h.lower hg _)
    (fun _ _ _ h hg _ => h.remove hg) _ id (.refl e)

theorem shrinks_release (e : Engine V) (nodeIds : List NodeId) : Shrinks e (e.release nodeIds) :=
  release_induction (P := Shrinks e) (fun _ _ _ h hg _ => h.lower hg _)
    (fun _ _ _ h hg _ => h.remove hg) nodeIds (.refl e)

theorem shrinks_drainPendingRemovals (e : Engine V) : Shrinks e e.drainPendingRemovals :=
  drainPendingRemovals_induction (P := Shrinks e) (fun _ _ _ h hg _ => h.lower hg _)
    (fun _ _ _ h hg _ => h.remove hg) { Shrinks.refl e with }

/-! ## The edges that stay -/

/-- The edges out of the nodes that are in the topology are listed alike both ways. Of the edges out
of others nothing is said: the list of dependents of a removed node is gone while its dependents may
still name it. -/
def LiveExact (t : Topology) : Prop :=
  ∀ u ∈ t.deps.keys, ∀ v, (t.dependentsOf u).count v = (t.depsOf v).count u

/-- Removing a node takes both listings of the edges it reads along. Of the edges it is read along
only its own list goes, but then it is not in the topology any more. -/
theorem LiveExact.removeNode {t : Topology} (h : LiveExact t) (id : NodeId) :
    LiveExact (t.removeNode id) := by
  intro u hu v
  rw [Topology.keys_deps_removeNode, Finset.mem_erase] at hu
  obtain ⟨hne, hu⟩ := hu
  have huv := h u hu v
  rw [Topology.dependentsOf_removeNode, if_neg hne, Topology.depsOf_removeNode]
  by_cases hv : v = id
  · subst hv
    rw [if_pos rfl, List.count_nil]
    split
    · exact List.count_eq_zero.mpr (by simp)
    · next hnot => rw [huv, List.count_eq_zero.mpr hnot]
  · rw [if_neg hv]
    split
    · rw [List.count_filter (by simpa using hv), huv]
    · exact huv

/-- What a deactivation keeps of the edges. Together the two give `ExactOn` for any set of nodes
that are in the topology, which is what the sort of a cycle asks for. -/
def EdgesOk (e : Engine V) : Prop := e.topology.AtMost ∧ LiveExact e.topology

theorem EdgesOk.of_exact (h : Exact e.topology) : e.EdgesOk := ⟨h.atMost, fun u _ v => h u v⟩

/-- What is in the edge lists twice over is in the topology, so there the lists agree. -/
theorem EdgesOk.exactOn (h : e.EdgesOk) {D : Finset NodeId} (hD : D ⊆ e.topology.deps.keys) :
    Kahn.ExactOn e.topology.depsOf e.topology.dependentsOf D :=
  fun u hu v _ => h.2 u (hD hu) v

theorem EdgesOk.release (h : e.EdgesOk) (nodeIds : List NodeId) : (e.release nodeIds).EdgesOk :=
  release_induction (P := EdgesOk) (fun _ _ _ h _ _ => h)
    (fun _ id _ h _ _ => ⟨h.1.removeNode id, h.2.removeNode id⟩) nodeIds h

theorem EdgesOk.drainPendingRemovals (h : e.EdgesOk) : e.drainPendingRemovals.EdgesOk :=
  drainPendingRemovals_induction (P := EdgesOk) (fun _ _ _ h _ _ => h)
    (fun _ id _ h _ _ => ⟨h.1.removeNode id, h.2.removeNode id⟩) h

/-! ## The wiring that stays -/

theorem Wired.lower (h : Wired e) {id : NodeId} {entry : NodeEntry V}
    (hentry : e.graph.entries.get id = some entry) (k : ℕ) :
    Wired (e.setEntries (e.graph.entries.insert id { entry with refCount := k })) where
  keys := h.keys
  deps v deps hdeps := by
    obtain ⟨entry', hentry', rfl⟩ := h.deps v deps hdeps
    have hget := FinMap.get_insert e.graph.entries id v { entry with refCount := k }
    by_cases hv : v = id
    · subst hv
      obtain rfl := Option.some.inj (hentry.symm.trans hentry')
      exact ⟨_, hget.trans (if_pos rfl), rfl⟩
    · exact ⟨entry', hget.trans ((if_neg hv).trans hentry'), rfl⟩

theorem Wired.removeEntry (h : Wired e) (id : NodeId) (kind : NodeKind) :
    Wired (e.removeEntry id kind) where
  keys := (Topology.keys_deps_removeNode (t := e.topology) id).trans (by rw [h.keys]; rfl)
  deps v deps hdeps := by
    have hget : (e.topology.deps.remove id).get v = some deps := hdeps
    obtain ⟨hv, hget⟩ := FinMap.get_remove_eq_some.mp hget
    obtain ⟨entry, hentry, hdeps⟩ := h.deps v deps hget
    exact ⟨entry, (FinMap.get_remove_of_ne e.graph.entries hv).trans hentry, hdeps⟩

theorem Wired.release (h : Wired e) (nodeIds : List NodeId) : Wired (e.release nodeIds) :=
  release_induction (P := Wired) (fun _ _ _ h hg _ => h.lower hg _)
    (fun _ id _ h _ _ => h.removeEntry id _) nodeIds h

theorem Wired.drainPendingRemovals (h : Wired e) : Wired e.drainPendingRemovals :=
  drainPendingRemovals_induction (P := Wired) (fun _ _ _ h hg _ => h.lower hg _)
    (fun _ id _ h _ _ => h.removeEntry id _) (h.congr rfl rfl rfl)

/-- A node has the dependencies it had, or is gone and has none. -/
theorem Shrinks.depsOf (h : Shrinks e e') (v : NodeId) :
    e'.topology.depsOf v = e.topology.depsOf v ∨ e'.topology.depsOf v = [] := by
  unfold Topology.depsOf
  by_cases hr : Removed e e' v
  · rw [h.deps_removed v hr]
    exact Or.inr rfl
  · rw [h.deps v hr]
    exact Or.inl rfl

end Engine

end ReactiveGraph
