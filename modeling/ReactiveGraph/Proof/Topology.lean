import ReactiveGraph.Model.Topology

/-!
# What the topology computes

Two facts about the edge maps carry everything downstream: an edge is never listed more often among
the dependents than among the dependencies (`AtMost`), and on a set of nodes that nobody has been
removed from under, exactly as often (`ExactOn`). `dirtySet` and `topoSort` are then the two
libraries' theorems at these lists.

**`AtMost` needs no assumption about the engine.** Adding a node that is not there keeps it, and so
does removing any node, whoever depends on it: what is lost when a node is removed is its list of
dependents, and an edge missing there is missing on the smaller side. It is enough for the sort to
be sound, since a count that is too high holds a node back and never lets it go early. Completeness
needs both sides to agree, and that is where a node that was removed under its dependents would be
noticed.

**The two main results** are over every topology, not over the reachable ones. `dirtySet_reachable`
asks nothing: the maps may disagree and the graph may have cycles. `topoSort_exact` asks for
`AtMost`, and for exactness only in the part that says who is left out. Both say as well that the
loop of the source ends, whichever way the hash sets are walked, and returns what the fuelled
definition computes; after this file the loops without fuel are not mentioned again.

Not here: that the topology of an engine satisfies `AtMost`, or which of its edges are exact. That
is a matter of the engine's operations (`Proof/Deactivation.lean`, `Proof/Activation.lean`).
-/

namespace ReactiveGraph

namespace Topology

open Relation

variable {t : Topology}

theorem depsOf_of_get {id : NodeId} {deps : List NodeId} (h : t.deps.get id = some deps) :
    t.depsOf id = deps := by rw [depsOf, h, Option.getD_some]

theorem depsOf_of_notMem {id : NodeId} (h : id ∉ t.deps.keys) : t.depsOf id = [] := by
  rw [depsOf, FinMap.notMem_keys.mp h, Option.getD_none]

/-! ## Adding a node -/

theorem get_foldl_pushDependent (id : NodeId) (deps : List NodeId)
    (m : FinMap NodeId (List NodeId)) (u : NodeId) :
    ((deps.foldl (pushDependent id) m).get u).getD [] =
      (m.get u).getD [] ++ List.replicate (deps.count u) id := by
  induction deps generalizing m with
  | nil => simp
  | cons dep deps ih =>
    rw [List.foldl_cons, ih, pushDependent, FinMap.get_insert, List.count_cons]
    by_cases hu : u = dep
    · subst hu
      rw [if_pos rfl, Option.getD_some, List.append_assoc, beq_self_eq_true, if_pos rfl,
        List.replicate_succ, List.singleton_append]
    · simp [hu, Ne.symm hu]

theorem depsOf_addNode (id : NodeId) (deps : List NodeId) (v : NodeId) :
    (t.addNode id deps).depsOf v = if v = id then deps else t.depsOf v := by
  simp only [depsOf, addNode, FinMap.get_insert]
  split <;> rfl

theorem dependentsOf_addNode (id : NodeId) (deps : List NodeId) (u : NodeId) :
    (t.addNode id deps).dependentsOf u =
      t.dependentsOf u ++ List.replicate (deps.count u) id := by
  simp only [dependentsOf, addNode, FinMap.get_insert]
  split
  · next hu => rw [hu, Option.getD_some, get_foldl_pushDependent]
  · rw [get_foldl_pushDependent]

/-- Adding a node adds its edges, each as often as it is listed, and no others. -/
theorem count_dependentsOf_addNode (id : NodeId) (deps : List NodeId) (u v : NodeId) :
    ((t.addNode id deps).dependentsOf u).count v =
      (t.dependentsOf u).count v + if v = id then deps.count u else 0 := by
  rw [dependentsOf_addNode, List.count_append, List.count_replicate]
  by_cases hv : v = id
  · simp [hv]
  · simp [hv, Ne.symm hv]

theorem keys_deps_addNode (id : NodeId) (deps : List NodeId) :
    (t.addNode id deps).deps.keys = insert id t.deps.keys := FinMap.keys_insert _ _ _

/-! ## Removing a node -/

theorem get_foldl_retainOthers (id : NodeId) (deps : List NodeId)
    (m : FinMap NodeId (List NodeId)) (u : NodeId) :
    (deps.foldl (retainOthers id) m).get u =
      if u ∈ deps then (m.get u).map (List.filter (· ≠ id)) else m.get u := by
  induction deps generalizing m with
  | nil => simp
  | cons dep deps ih =>
    have hstep : (retainOthers id m dep).get u =
        if u = dep then (m.get u).map (List.filter (· ≠ id)) else m.get u := by
      cases hm : m.get dep with
      | none =>
        simp only [retainOthers, hm]
        split
        · next hu => rw [hu, hm]; rfl
        · rfl
      | some l =>
        simp only [retainOthers, hm, FinMap.get_insert]
        split
        · next hu => rw [hu, hm]; rfl
        · rfl
    rw [List.foldl_cons, ih, hstep]
    by_cases hu : u = dep
    · subst hu
      cases m.get u <;> simp [List.filter_filter]
    · simp [hu]

/-- `removeNode` takes a node's own list away and the node out of its dependencies' lists; it makes
no list. -/
theorem get_dependents_removeNode (id u : NodeId) :
    (t.removeNode id).dependents.get u = if u = id then none
      else if u ∈ t.depsOf id then (t.dependents.get u).map (List.filter (· ≠ id))
        else t.dependents.get u := by
  simp only [removeNode, FinMap.get_remove, get_foldl_retainOthers]

theorem depsOf_removeNode (id v : NodeId) :
    (t.removeNode id).depsOf v = if v = id then [] else t.depsOf v := by
  simp only [depsOf, removeNode, FinMap.get_remove]
  split <;> rfl

/-- Removing a node removes its own list and its occurrences in its dependencies' lists. -/
theorem dependentsOf_removeNode (id u : NodeId) :
    (t.removeNode id).dependentsOf u = if u = id then []
      else if u ∈ t.depsOf id then (t.dependentsOf u).filter (· ≠ id) else t.dependentsOf u := by
  simp only [dependentsOf, get_dependents_removeNode]
  split
  · rfl
  · split
    · cases t.dependents.get u <;> rfl
    · rfl

theorem keys_deps_removeNode (id : NodeId) :
    (t.removeNode id).deps.keys = t.deps.keys.erase id := FinMap.keys_remove _ _

/-! ## Edges -/

/-- An edge is listed among the dependents at most as often as among the dependencies. Kept by every
operation of the topology, provided that a node is added only when it is not there. -/
def AtMost (t : Topology) : Prop := Kahn.AtMost t.depsOf t.dependentsOf

theorem AtMost.new : Topology.new.AtMost := fun u v => by simp [Topology.new, dependentsOf]

theorem AtMost.addNode (h : t.AtMost) {id : NodeId} (hid : id ∉ t.deps.keys)
    (deps : List NodeId) : (t.addNode id deps).AtMost := by
  intro u v
  rw [count_dependentsOf_addNode, depsOf_addNode]
  have := h u v
  by_cases hv : v = id
  · subst hv
    rw [depsOf_of_notMem hid, List.count_nil] at this
    rw [if_pos rfl, if_pos rfl]
    omega
  · rw [if_neg hv, if_neg hv]
    omega

theorem AtMost.removeNode (h : t.AtMost) (id : NodeId) : (t.removeNode id).AtMost := by
  intro u v
  have huv := h u v
  rw [dependentsOf_removeNode, depsOf_removeNode]
  by_cases hu : u = id
  · rw [if_pos hu, List.count_nil]
    exact Nat.zero_le _
  · rw [if_neg hu]
    by_cases hv : v = id
    -- the node's own dependencies are gone, and so are its occurrences in their lists
    · subst hv
      rw [if_pos rfl, List.count_nil]
      split
      · exact le_of_eq (List.count_eq_zero.mpr (by simp))
      · next hnot =>
        rw [List.count_eq_zero.mpr hnot] at huv
        exact huv
    · rw [if_neg hv]
      split
      · rw [List.count_filter (by simpa using hv)]
        exact huv
      · exact huv

/-! ## The dirty set -/

/-- `v` is downstream of `u`, by one or more edges, as the dependents list them. A node is
downstream of itself only on a cycle. -/
def Downstream (t : Topology) (u v : NodeId) : Prop :=
  TransGen (Worklist.Edge t.dependentsOf) u v

/-- An edge to a dependent is an edge to a dependency. -/
theorem AtMost.mem_depsOf (h : t.AtMost) {u v : NodeId} (huv : v ∈ t.dependentsOf u) :
    u ∈ t.depsOf v :=
  List.count_pos_iff.mp ((List.count_pos_iff.mpr huv).trans_le (h u v))

theorem mem_listed {u v : NodeId} (h : v ∈ t.dependentsOf u) : v ∈ t.listed := by
  refine Finset.mem_biUnion.mpr ⟨u, ?_, List.mem_toFinset.mpr h⟩
  rw [FinMap.mem_keys]
  cases hu : t.dependents.get u with
  | none => rw [dependentsOf, hu] at h; exact absurd h List.not_mem_nil
  | some l => rfl

/-- **The dirty set is what is downstream of the sources**, whatever order they are walked in. This
is the form in which cycles use it; the next theorem says it together with the rest. -/
theorem mem_dirtySet {order : IterOrder} {sources : Finset NodeId} {v : NodeId} :
    v ∈ t.dirtySet order sources ↔ ∃ s ∈ sources, t.Downstream s v := by
  rw [dirtySet, Worklist.mem_loop (fun u v h => mem_listed h) le_rfl]
  simp only [IterOrder.mem_iter]
  rfl

theorem dirtySet_returns (order : IterOrder) (sources : Finset NodeId) :
    DirtySetReturns order t sources (t.dirtySet order sources) :=
  Worklist.loop_mem_eval (fun _ _ h => mem_listed h) (by rw [Finset.sdiff_empty])

/-- **The dirty set is forward reachability.** The loop ends on every graph; what it returns is what
a path of one or more edges leads to from a source, so a source only if one leads to it, and the
parts of a set of sources add up.

Nothing is assumed of the topology. The last part lets the three walks differ, so it says in
particular that the order of the initial queue does not matter. -/
theorem dirtySet_reachable (t : Topology) (order : IterOrder) (sources : Finset NodeId) :
    DirtySetReturns order t sources (t.dirtySet order sources) ∧
      (∀ v, v ∈ t.dirtySet order sources ↔ ∃ s ∈ sources, t.Downstream s v) ∧
      ∀ order' order'' : IterOrder, ∀ sources' : Finset NodeId,
        t.dirtySet order (sources ∪ sources') =
          t.dirtySet order' sources ∪ t.dirtySet order'' sources' := by
  refine ⟨dirtySet_returns order sources, fun v => mem_dirtySet, fun order' order'' sources' => ?_⟩
  ext v
  simp only [Finset.mem_union, mem_dirtySet, or_and_right, exists_or]

/-! ## The sort -/

/-- A node without a list of dependencies has in-degree zero, as if its list were empty. -/
theorem countDirty_eq {dirty : Finset NodeId} {m : FinMap NodeId ℕ} {node : NodeId}
    (h : m.get node = none) :
    t.countDirty dirty m node = m.insert node (Kahn.need t.depsOf dirty node) := by
  rw [Kahn.need, depsOf]
  cases hdeps : t.deps.get node with
  | none => simp [countDirty, hdeps, h]
  | some deps => simp [countDirty, hdeps]

theorem get_foldl_countDirty {dirty : Finset NodeId} {nodes : List NodeId} (hnd : nodes.Nodup)
    {m : FinMap NodeId ℕ} (hm : ∀ u ∈ nodes, m.get u = none) (v : NodeId) :
    (nodes.foldl (t.countDirty dirty) m).get v =
      if v ∈ nodes then some (Kahn.need t.depsOf dirty v) else m.get v := by
  induction nodes generalizing m with
  | nil => simp
  | cons x nodes ih =>
    obtain ⟨hx, hnd⟩ := List.nodup_cons.mp hnd
    rw [List.foldl_cons, countDirty_eq (hm x List.mem_cons_self), ih hnd]
    · rw [FinMap.get_insert]
      by_cases hv : v = x
      · subst hv
        simp [hx]
      · simp [hv]
    · intro u hu
      have hux : u ≠ x := by
        rintro rfl
        exact hx hu
      rw [FinMap.get_insert_of_ne _ _ hux]
      exact hm u (List.mem_cons_of_mem _ hu)

theorem get_inDegrees (dirty : Finset NodeId) {nodes : List NodeId} (hnd : nodes.Nodup)
    (v : NodeId) : (t.inDegrees dirty nodes).get v =
      if v ∈ nodes then some (Kahn.need t.depsOf dirty v) else none := by
  rw [inDegrees, get_foldl_countDirty hnd (by simp), FinMap.get_empty]

theorem get_inDegrees_iter (order : IterOrder) (dirty : Finset NodeId) (v : NodeId) :
    (t.inDegrees dirty (order.iter dirty)).get v =
      if v ∈ dirty then some (Kahn.need t.depsOf dirty v) else none := by
  rw [get_inDegrees dirty (order.nodup_iter dirty)]
  simp

/-- The in-degrees are the same whichever way the dirty set is walked: each is computed from the
node alone. This is why the fuelled `topoSort` may use one order for both walks. -/
theorem inDegrees_iter (order order' : IterOrder) (dirty : Finset NodeId) :
    t.inDegrees dirty (order.iter dirty) = t.inDegrees dirty (order'.iter dirty) :=
  FinMap.ext fun v => by rw [get_inDegrees_iter, get_inDegrees_iter]

theorem mem_keys_inDegrees (order : IterOrder) (dirty : Finset NodeId) (v : NodeId) :
    v ∈ (t.inDegrees dirty (order.iter dirty)).keys ↔ v ∈ dirty := by
  rw [FinMap.mem_keys, get_inDegrees_iter]
  split <;> simp_all

/-- **The sort is sound for every iteration order**: no duplicates, only dirty nodes, each after its
dirty dependencies, and what is missing is held back by dependencies that are missing. The library's
theorem on Kahn's loop, once the in-degrees it starts from are known. -/
theorem sorted_topoSort (h : t.AtMost) (order : IterOrder) (dirty : Finset NodeId) :
    Kahn.Sorted t.depsOf t.dependentsOf dirty (t.topoSort order dirty) := by
  unfold topoSort
  split
  · next hempty =>
    subst hempty
    exact ⟨List.nodup_nil, by simp, .nil, by simp⟩
  · refine (Kahn.sorted_loop h (order.nodup_iter _) (fun v => ?_)
      (get_inDegrees_iter order dirty) le_rfl).1
    rw [order.mem_iter, mem_keys_inDegrees]

theorem topoSort_returns (h : t.AtMost) (walk order : IterOrder) (dirty : Finset NodeId) :
    TopoSortReturns walk order t dirty (t.topoSort order dirty) := by
  unfold TopoSortReturns topoSort
  split
  · rfl
  · rw [inDegrees_iter walk order dirty]
    refine (Kahn.sorted_loop h (order.nodup_iter _) (fun v => ?_)
      (get_inDegrees_iter order dirty) le_rfl).2
    rw [order.mem_iter, mem_keys_inDegrees]

/-- **The sort is complete** where the edges inside the dirty set are listed alike both ways and no
cycle runs. The form for cycles of an engine, whose removed nodes may have left edges outside of the
dirty set. -/
theorem mem_topoSort (h : t.AtMost) {order : IterOrder} {dirty : Finset NodeId}
    (hex : Kahn.ExactOn t.depsOf t.dependentsOf dirty)
    (hac : Dag.Acyclic fun u v => u ∈ t.depsOf v) {v : NodeId} :
    v ∈ t.topoSort order dirty ↔ v ∈ dirty :=
  (sorted_topoSort h order dirty).mem_iff hex hac

/-- **The sort is exact on every dirty set.** The loop ends, whatever the walks, and no node is
listed twice, or before a dirty dependency of it. If every edge is listed alike both ways, the nodes
that are left out are those that a cycle of dirty nodes leads to, so none if there is no cycle.

The first four parts rest on `AtMost` alone. An edge listed twice is counted twice on both sides, so
repetitions are no exception; an edge listed once too few among the dependents would keep its node
back, and the source would leave such a node out as well. -/
theorem topoSort_exact (t : Topology) (h : t.AtMost) (walk order : IterOrder)
    (dirty : Finset NodeId) :
    TopoSortReturns walk order t dirty (t.topoSort order dirty) ∧
      (t.topoSort order dirty).Nodup ∧ (∀ v ∈ t.topoSort order dirty, v ∈ dirty) ∧
      Dag.Ordered t.depsOf (· ∈ dirty) (t.topoSort order dirty) ∧
      ((∀ u v, (t.dependentsOf u).count v = (t.depsOf v).count u) →
        (∀ v, v ∈ t.topoSort order dirty ↔ v ∈ dirty ∧
          ¬ ∃ c, TransGen (Dag.Within t.depsOf dirty) c c ∧
            ReflTransGen (Dag.Within t.depsOf dirty) c v) ∧
        (Dag.Acyclic (Dag.Within t.depsOf dirty) →
          ∀ v, v ∈ t.topoSort order dirty ↔ v ∈ dirty)) := by
  have hsorted := sorted_topoSort h order dirty
  refine ⟨topoSort_returns h walk order dirty, hsorted.nodup, hsorted.subset, hsorted.ordered,
    fun hexact => ?_⟩
  have hmem : ∀ v, v ∈ t.topoSort order dirty ↔ v ∈ dirty ∧
      ¬ ∃ c, TransGen (Dag.Within t.depsOf dirty) c c ∧
        ReflTransGen (Dag.Within t.depsOf dirty) c v := fun v =>
    hsorted.mem_iff_no_cycle fun u _ v _ => hexact u v
  refine ⟨hmem, fun hac v => ?_⟩
  rw [hmem v, and_iff_left]
  -- a cycle is what the last hypothesis excludes
  rintro ⟨c, hc, -⟩
  exact hac c hc

/-- Two nodes that read the first, one of them the other as well and twice, and two nodes after that
which read each other. The double edge is sorted across, the loop is left out. -/
def twoAndLoop : Topology :=
  (((new.addNode ⟨0, 1⟩ [⟨0, 0⟩]).addNode ⟨0, 2⟩ [⟨0, 0⟩, ⟨0, 1⟩, ⟨0, 1⟩]).addNode ⟨0, 3⟩
    [⟨0, 2⟩, ⟨0, 4⟩]).addNode ⟨0, 4⟩ [⟨0, 3⟩]

theorem topoSort_exact_twoAndLoop :
    (twoAndLoop.topoSort default {⟨0, 4⟩, ⟨0, 3⟩, ⟨0, 2⟩, ⟨0, 1⟩}).Nodup ∧
      twoAndLoop.topoSort default {⟨0, 4⟩, ⟨0, 3⟩, ⟨0, 2⟩, ⟨0, 1⟩} = [⟨0, 1⟩, ⟨0, 2⟩] := by
  have h : twoAndLoop.AtMost := (((AtMost.new.addNode (by decide +kernel) _).addNode
    (by decide +kernel) _).addNode (by decide +kernel) _).addNode (by decide +kernel) _
  exact ⟨(topoSort_exact twoAndLoop h default default _).2.1, by decide +kernel⟩

end Topology

end ReactiveGraph
