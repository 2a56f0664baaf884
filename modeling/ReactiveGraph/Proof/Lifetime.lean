import Mathlib.Algebra.Order.BigOperators.Group.Finset
import ReactiveGraph.Proof.World

/-!
# What a dropped handle takes along

`deactivate_node` follows reference counts, and the counts are of registrations: a merge adds one
for each node of the subgraph, a drop takes one for each node of the handle — and then, for every
node whose count reaches zero, one more for each of its dependencies, although nothing was ever
counted for being depended on. So a node that two subgraphs share is taken two from when the one of
them that also owns a reader of it is dropped: one by the handle's list, one by the cascade.

`outlives_iff` says exactly which runs leave every live handle its nodes, and `noDangling_iff` which
drops leave no active node with a dependency that is gone. Both are read off the reference counts by
the library's account of a release.

**The conditions look at counts before the drop, and never at what the drop does.** `SparesOthers`
asks of the nodes of the other handles that they are counted more often than the dropped handle
lists them and nodes outside the other handles read them: those readers may all go. `HoldsDeps` asks
that an active node which is held has dependencies that are held, where held means lying in a set
that is safe in this sense. Neither runs the cascade.

**Two results about outliving.** The first is over all runs of merges and drops, whatever the
clients merge; since a merge can be overruled by an earlier registration of an id, it has a
condition on merges too. The second is about clients that agree on what an id stands for and bring
along what their nodes read: then merges reach what they need, and the drops alone decide
(`outlives_iff_sparesOthers`). Acyclicity plays no part in either.

`shared_source_removed` is the smallest case: two clients of one source, of whom the first leaves.
-/

namespace ReactiveGraph

open Engine Relation

variable {V : Type*}

/-! ## Handles -/

namespace World

/-- The nodes of all handles, each as often as it is listed. -/
def owned (w : World V) : List NodeId := w.handles.flatMap fun held => held.handle.nodeIds

/-- The nodes of all handles but one. -/
def ownedByOthers (w : World V) (i : ℕ) : List NodeId :=
  (w.handles.eraseIdx i).flatMap fun held => held.handle.nodeIds

theorem perm_owned {w : World V} {i : ℕ} {held : Holding V} (h : w.handles[i]? = some held) :
    (held.handle.nodeIds ++ w.ownedByOthers i).Perm w.owned := by
  obtain ⟨hlt, rfl⟩ := List.getElem?_eq_some_iff.mp h
  have := (List.getElem_cons_eraseIdx_perm hlt).flatMap_right fun held => held.handle.nodeIds
  rwa [List.flatMap_cons] at this

theorem count_owned {w : World V} {i : ℕ} {held : Holding V} (h : w.handles[i]? = some held)
    (v : NodeId) :
    w.owned.count v = held.handle.nodeIds.count v + (w.ownedByOthers i).count v := by
  rw [← (perm_owned h).count_eq, List.count_append]

theorem mem_ownedByOthers {w : World V} {i : ℕ} {v : NodeId} :
    v ∈ w.ownedByOthers i ↔ ∃ held ∈ w.handles.eraseIdx i, v ∈ held.handle.nodeIds :=
  List.mem_flatMap

end World

/-! ## What a subgraph is merged for -/

namespace Subgraph

/-- The subgraph has the node down as a sink. -/
def HasSink (s : Subgraph V) (k : NodeId) : Prop :=
  ∃ desc ∈ s.descriptors, desc.id = k ∧ desc.kind = .sink

/-- The subgraph has `u` down as a dependency of `v`. -/
def Reads (s : Subgraph V) (u v : NodeId) : Prop :=
  ∃ desc ∈ s.descriptors, desc.id = v ∧ u ∈ desc.deps

/-- The node is a sink of the subgraph, or a sink of it depends on the node, by the subgraph's own
account of its nodes. This is what the subgraph was merged for. -/
def Needs (s : Subgraph V) (v : NodeId) : Prop := ∃ k, s.HasSink k ∧ ReflTransGen s.Reads v k

end Subgraph

/-- Every node of every handle is registered, and active if the handle's subgraph needs it. The
subgraph is the one the handle was made for, as its builder had it. -/
def World.Outlives (w : World V) : Prop :=
  ∀ held ∈ w.handles, ∀ v ∈ held.handle.nodeIds,
    v ∈ w.engine.graph.entries.keys ∧ (held.subgraph.Needs v → v ∈ w.engine.active)

def Action.MergesOrDrops : Action V → Prop
  | .merge _ | .drop _ => True
  | _ => False

/-- A drop finds every node of the other handles counted more often than the dropped handle lists it
and registered nodes outside the other handles read it. A condition on counts and lists before the
drop. -/
def Action.SparesOthers (w : World V) : Action V → Prop
  | .drop i => ∀ held, w.handles[i]? = some held →
      RefCount.Safe (· ∈ w.ownedByOthers i) held.handle.nodeIds w.engine.graph.entries
  | _ => True

/-- A merge finds every node that its subgraph needs active, or visits it from one of the subgraph's
nodes that is registered as a sink. It does unless an id of the subgraph is registered already, as
another kind of node or with other dependencies: then the registration stands, and the subgraph's
own account of the node counts for nothing. -/
def Action.ReachesNeeded (w : World V) : Action V → Prop
  | .merge descs =>
    let s := SubgraphBuilder.ofList descs
    let e := w.engine.registerAll s.descriptors
    ∀ v ∈ s.nodeIds, s.Needs v →
      v ∈ e.active ∨ ∃ k ∈ s.nodeIds, HasKind e.graph k .sink ∧ e.Visits k v
  | _ => True

/-! ## What merges and drops keep -/

/-- Every registered node is counted at most once for each listing of a live handle, and every live
handle has its nodes. What merges and drops keep, under the two conditions. -/
structure World.Shared (w : World V) : Prop where
  wired : Wired w.engine
  positive : RefCount.Positive w.engine.graph.entries
  drained : w.engine.pendingRemovals = []
  counted : ∀ id entry, w.engine.graph.entries.get id = some entry →
    entry.refCount ≤ w.owned.count id
  outlives : w.Outlives

/-- What a merge does to a world with nothing to drain. -/
theorem World.apply_merge {w : World V} (hp : w.engine.pendingRemovals = [])
    (descs : List (NodeDescriptor V)) : w.apply (.merge descs) =
      ⟨(SubgraphBuilder.ofList descs).nodeIds.foldl activateIfSink
          (w.engine.registerAll (SubgraphBuilder.ofList descs).descriptors),
        w.handles ++ [⟨⟨(SubgraphBuilder.ofList descs).nodeIds⟩, SubgraphBuilder.ofList descs⟩]⟩ := by
  rw [← merge_eq hp]
  rfl

/-- What a drop does to a world with nothing else to drain. -/
theorem World.apply_drop {w : World V} (hp : w.engine.pendingRemovals = []) {i : ℕ}
    {held : Holding V} (hi : w.handles[i]? = some held) :
    w.apply (.drop i) = ⟨w.engine.release held.handle.nodeIds, w.handles.eraseIdx i⟩ := by
  simp only [World.apply, hi, drop_eq hp]

theorem World.apply_drop_of_none {w : World V} {i : ℕ} (hi : w.handles[i]? = none) :
    w.apply (.drop i) = w := by
  simp only [World.apply, hi]

namespace World.Shared

variable {w : World V}

theorem init : (World.init : World V).Shared where
  wired := Ok.new.wired
  positive := Ok.new.positive
  drained := rfl
  counted id entry h := by
    have : (∅ : FinMap NodeId (NodeEntry V)).get id = some entry := h
    simp at this
  outlives held h := absurd h List.not_mem_nil

/-! ### Merging -/

/-- A node counts at most one more for a subgraph that lists it, and no more for one that does
not. -/
theorem counted_registerAll (h : w.Shared) {s : Subgraph V} (hs : s.Built) (id : NodeId)
    (entry : NodeEntry V)
    (hentry : (w.engine.registerAll s.descriptors).graph.entries.get id = some entry) :
    entry.refCount ≤ w.owned.count id + s.nodeIds.count id := by
  have hcount : (s.descriptors.map NodeDescriptor.id).count id ≤ s.nodeIds.count id := by
    by_cases hid : id ∈ s.nodeIds
    · exact (List.nodup_iff_count_le_one.mp hs.nodup id).trans (List.count_pos_iff.mpr hid)
    · rw [List.count_eq_zero.mpr (mt (hs.ids id).mpr hid)]
      exact Nat.zero_le _
  rw [get_registerAll] at hentry
  cases hold : w.engine.graph.entries.get id with
  | some old =>
    rw [hold, registeredEntry, Option.some.injEq] at hentry
    subst hentry
    exact Nat.add_le_add (h.counted id old hold) hcount
  | none =>
    rw [hold] at hentry
    obtain ⟨desc, -, rfl⟩ := Option.map_eq_some_iff.mp hentry
    exact hcount.trans (Nat.le_add_left _ _)

/-- **A merge leaves every handle its nodes exactly when it reaches what its subgraph needs.** The
handles there were lose nothing, and the new one's nodes are registered; that they are active is
what the condition is about. -/
theorem outlives_merge_iff (h : w.Shared) (descs : List (NodeDescriptor V)) :
    (w.apply (.merge descs)).Outlives ↔ (Action.merge descs).ReachesNeeded w := by
  have hp : (w.engine.registerAll (SubgraphBuilder.ofList descs).descriptors).pendingRemovals = [] :=
    h.drained
  have hbuilt := SubgraphBuilder.built_ofList descs
  have hkeys : ∀ v ∈ (SubgraphBuilder.ofList descs).nodeIds, v ∈
      (w.engine.registerAll (SubgraphBuilder.ofList descs).descriptors).graph.entries.keys :=
    fun v hv => mem_keys_registerAll.mpr (Or.inr ((hbuilt.ids v).mp hv))
  obtain ⟨hgrown, -, hrest⟩ := grown_activateSinks (SubgraphBuilder.ofList descs).nodeIds hp
  rw [apply_merge h.drained]
  constructor
  · intro hout v hv hneeds
    have hactive := (hout _ (List.mem_append_right _ (List.mem_singleton_self _)) v hv).2 hneeds
    exact ((mem_active_activateSinks hp).mp hactive).imp_right And.right
  · intro hreach held hheld v hv
    rw [hrest.entries]
    rcases List.mem_append.mp hheld with hheld | hheld
    -- a handle from before: nothing is taken from it
    · obtain ⟨hreg, hactive⟩ := h.outlives held hheld v hv
      exact ⟨mem_keys_registerAll.mpr (Or.inl hreg), fun hneeds => hgrown.mono (hactive hneeds)⟩
    · obtain rfl := List.mem_singleton.mp hheld
      exact ⟨hkeys v hv, fun hneeds => (mem_active_activateSinks hp).mpr
        ((hreach v hv hneeds).imp_right fun hvisit => ⟨hkeys v hv, hvisit⟩)⟩

theorem merge (h : w.Shared) {descs : List (NodeDescriptor V)}
    (hreach : (Action.merge descs).ReachesNeeded w) : (w.apply (.merge descs)).Shared := by
  have hp : (w.engine.registerAll (SubgraphBuilder.ofList descs).descriptors).pendingRemovals = [] :=
    h.drained
  have hout := (h.outlives_merge_iff descs).mpr hreach
  have hrest := sameRest_activateSinks (SubgraphBuilder.ofList descs).nodeIds hp
  rw [apply_merge h.drained] at hout ⊢
  refine ⟨wired_activateSinks _ hp (h.wired.registerAll _), ?_, hrest.pendingRemovals.trans hp,
    fun id entry hentry => ?_, hout⟩
  · rw [hrest.entries]
    exact positive_registerAll h.positive _
  · rw [World.owned, List.flatMap_append, List.flatMap_singleton, List.count_append]
    exact h.counted_registerAll (SubgraphBuilder.built_ofList descs) id entry
      (hrest.entries ▸ hentry)

/-! ### Dropping -/

section Drop

variable {i : ℕ} {held : Holding V}

/-- A node that only the dropped handle lists goes: it is counted at most as often as the handle
lists it. -/
theorem notMem_release (h : w.Shared) (hi : w.handles[i]? = some held) {x : NodeId}
    (hx : x ∉ w.ownedByOthers i) :
    x ∉ (w.engine.release held.handle.nodeIds).graph.entries.keys := by
  rw [entries_release]
  by_cases hreg : x ∈ w.engine.graph.entries.keys
  · obtain ⟨entry, hentry⟩ := FinMap.exists_get_of_mem_keys hreg
    refine RefCount.notMem_release h.positive hentry ?_
    have hle := h.counted x entry hentry
    rw [World.count_owned hi, List.count_eq_zero.mpr hx] at hle
    rw [List.count_reverse]
    exact hle
  · exact fun hmem => hreg (RefCount.keys_release_subset _ _ hmem)

/-- A node that another handle lists stays, if the drop spares the others. -/
theorem mem_release (h : w.Shared) (hi : w.handles[i]? = some held)
    (hsafe : (Action.drop i).SparesOthers w) {v : NodeId} (hv : v ∈ w.ownedByOthers i) :
    v ∈ (w.engine.release held.handle.nodeIds).graph.entries.keys := by
  obtain ⟨held', hheld', hvh⟩ := World.mem_ownedByOthers.mp hv
  rw [entries_release]
  refine RefCount.release_survives (K := (· ∈ w.ownedByOthers i)) ?_ hv
    (h.outlives held' (List.eraseIdx_subset hheld') v hvh).1
  simpa only [RefCount.Safe, List.count_reverse] using hsafe held hi

theorem counted_release (h : w.Shared) (hi : w.handles[i]? = some held) (id : NodeId)
    (entry' : NodeEntry V)
    (hentry' : (w.engine.release held.handle.nodeIds).graph.entries.get id = some entry') :
    entry'.refCount ≤ (w.ownedByOthers i).count id := by
  obtain ⟨entry, hentry, -⟩ :=
    (shrinks_release w.engine held.handle.nodeIds).entries id entry' hentry'
  rw [entries_release] at hentry'
  have hacc : entry.refCount = entry'.refCount + _ + _ :=
    RefCount.release_accounting hentry hentry'
  have hle := h.counted id entry hentry
  rw [World.count_owned hi] at hle
  rw [List.count_reverse] at hacc
  omega

/-- **Dropping a handle that spares the others.** What was active for them and is registered is
still active. -/
theorem drop (h : w.Shared) (hsafe : (Action.drop i).SparesOthers w) :
    (w.apply (.drop i)).Shared := by
  cases hi : w.handles[i]? with
  | none => rwa [World.apply_drop_of_none hi]
  | some held =>
    rw [World.apply_drop h.drained hi]
    refine ⟨h.wired.release _, ?_, (pendingRemovals_release _ _).trans h.drained,
      fun id entry' hentry' => h.counted_release hi id entry' hentry', fun held' hheld' v hv => ?_⟩
    · rw [entries_release]
      exact h.positive.release
    · have hreg := h.mem_release hi hsafe (World.mem_ownedByOthers.mpr ⟨held', hheld', hv⟩)
      have hold := h.outlives held' (List.eraseIdx_subset hheld') v hv
      exact ⟨hreg, fun hneeds => h.wired.mem_active_release.mpr ⟨hold.2 hneeds, hreg⟩⟩

/-- **A drop that does not spare the others takes one of their nodes along.** If they all survived,
a node's count would have had to cover the dropped handle's list and every link to it from a node
that is nobody else's, since those go. The other direction of the equivalence, by the account of a
release. -/
theorem sparesOthers_of_outlives (h : w.Shared) (hout : (w.apply (.drop i)).Outlives) :
    (Action.drop i).SparesOthers w := by
  intro held hi v hv entry hentry
  rw [World.apply_drop h.drained hi] at hout
  obtain ⟨held', hheld', hvh⟩ := World.mem_ownedByOthers.mp hv
  obtain ⟨hreg, -⟩ := hout held' hheld' v hvh
  rw [entries_release] at hreg
  obtain ⟨entry', hentry'⟩ := FinMap.exists_get_of_mem_keys hreg
  -- the node stays, so its count is what it was less the list and the links of those that went
  have hacc := RefCount.release_accounting hentry hentry'
  have hone := h.positive.release v entry' hentry'
  have hle : ∑ x ∈ w.engine.graph.entries.keys with x ∉ w.ownedByOthers i,
      (RefCount.linksOf w.engine.graph.entries x).count v ≤
        ∑ x ∈ w.engine.graph.entries.keys \
          (RefCount.release held.handle.nodeIds.reverse w.engine.graph.entries).keys,
            (RefCount.linksOf w.engine.graph.entries x).count v := by
    refine Finset.sum_le_sum_of_subset fun x hx => ?_
    obtain ⟨hxreg, hxo⟩ := Finset.mem_filter.mp hx
    refine Finset.mem_sdiff.mpr ⟨hxreg, ?_⟩
    rw [← entries_release]
    exact h.notMem_release hi hxo
  rw [List.count_reverse] at hacc
  show held.handle.nodeIds.count v + ∑ x ∈ w.engine.graph.entries.keys with x ∉ w.ownedByOthers i,
    (RefCount.linksOf w.engine.graph.entries x).count v < Counted.count entry
  omega

end Drop

end World.Shared

/-- **Shared nodes outlive the subgraphs that use them exactly when every drop spares the others and
every merge reaches what it needs.** Whether the subgraphs are whole and whether the dependency
relation has cycles plays no part.

Along the run, with `World.Shared` as the invariant from right to left. From left to right each step
is looked at in the state before it, which has the invariant since the run has been good so far. -/
theorem outlives_iff (as : List (Action V)) (h : ∀ a ∈ as, a.MergesOrDrops) :
    Runs.Always World.apply World.Outlives World.init as ↔
      Runs.AllSteps World.apply (fun w a => a.SparesOthers w ∧ a.ReachesNeeded w)
        World.init as := by
  refine Runs.always_iff_allSteps (I := World.Shared) (H := fun _ a => a.MergesOrDrops)
    (fun w hw => hw.outlives) (fun w a hw ha hc => ?_) (fun w a hw ha hc => ?_) .init
    (.of_forall h)
  · cases a with
    | merge descs => exact hw.merge hc.2
    | drop i => exact hw.drop hc.1
    | _ => exact ha.elim
  · cases a with
    | merge descs => exact fun hout => hc ⟨trivial, (hw.outlives_merge_iff descs).mp hout⟩
    | drop i => exact fun hout => hc ⟨hw.sparesOthers_of_outlives hout, trivial⟩
    | _ => exact ha.elim

instance {w : World V} {a : Action V} : Decidable (a.SparesOthers w) :=
  match a with
  | .drop i => inferInstanceAs (Decidable (∀ held ∈ w.handles[i]?,
      RefCount.Safe (· ∈ w.ownedByOthers i) held.handle.nodeIds w.engine.graph.entries))
  | .register _ | .merge _ | .activateSink _ | .setErrorStrategy _ _ | .concurrencyGroup _
  | .send _ _ | .complete _ | .runCycle _ | .runCycleParallel _ => .isTrue trivial

/-! ## Clients that agree

When an id stands for the same node in every subgraph, and a subgraph brings all that its nodes
read, merges reach what they need, and the drops alone decide.
-/

/-- What the clients agree on: of which kind a node is and what it reads. -/
structure Shape where
  kind : NodeId → NodeKind
  deps : NodeId → List NodeId

/-- Only whole subgraphs are merged — each node registered once, as the shape has it, with its
dependencies among the nodes — and only handles are dropped. -/
def Action.Whole (shape : Shape) : Action V → Prop
  | .merge descs => (descs.map NodeDescriptor.id).Nodup ∧ ∀ desc ∈ descs,
      desc.kind = shape.kind desc.id ∧ desc.deps = shape.deps desc.id ∧
        ∀ d ∈ desc.deps, d ∈ descs.map NodeDescriptor.id
  | .drop _ => True
  | _ => False

/-- What a whole subgraph is once it is built. -/
structure Subgraph.Whole (shape : Shape) (s : Subgraph V) : Prop where
  built : s.Built
  entries : ∀ desc ∈ s.descriptors, desc.kind = shape.kind desc.id ∧
    desc.deps = shape.deps desc.id
  deps : ∀ v ∈ s.nodeIds, ∀ u ∈ shape.deps v, u ∈ s.nodeIds

theorem Action.Whole.ofList {shape : Shape} {descs : List (NodeDescriptor V)}
    (h : (Action.merge descs).Whole shape) : (SubgraphBuilder.ofList descs).Whole shape where
  built := SubgraphBuilder.built_ofList descs
  entries desc hdesc := by
    obtain ⟨hk, hd, -⟩ := h.2 desc (SubgraphBuilder.mem_descriptors_ofList hdesc)
    exact ⟨hk, hd⟩
  deps v hv u hu := by
    rw [SubgraphBuilder.nodeIds_ofList] at hv ⊢
    obtain ⟨desc, hdesc, rfl⟩ := List.mem_map.mp hv
    obtain ⟨-, hd, hin⟩ := h.2 desc hdesc
    exact hin u (by rwa [hd])

/-- What a run of whole subgraphs keeps besides. -/
structure World.Uniform (shape : Shape) (w : World V) : Prop where
  shared : w.Shared
  entries : ∀ id entry, w.engine.graph.entries.get id = some entry →
    entry.kind = shape.kind id ∧ entry.deps = shape.deps id
  whole : ∀ held ∈ w.handles, ∀ v ∈ held.handle.nodeIds, ∀ u ∈ shape.deps v,
    u ∈ held.handle.nodeIds
  closed : ∀ v ∈ w.engine.active, ∀ u ∈ w.engine.graph.depsOf v, u ∈ w.engine.active

namespace World.Uniform

variable {shape : Shape} {w : World V}

theorem init : (World.init : World V).Uniform shape where
  shared := .init
  entries id entry h := by
    have : (∅ : FinMap NodeId (NodeEntry V)).get id = some entry := h
    simp at this
  whole held h := absurd h List.not_mem_nil
  closed v hv := absurd hv (Finset.notMem_empty v)

theorem depsOf (h : w.Uniform shape) {id : NodeId} (hid : id ∈ w.engine.graph.entries.keys) :
    w.engine.graph.depsOf id = shape.deps id := by
  obtain ⟨entry, hentry⟩ := FinMap.exists_get_of_mem_keys hid
  rw [Graph.depsOf_of_get hentry, (h.entries id entry hentry).2]

/-- Every registered node is some handle's. -/
theorem owner (h : w.Uniform shape) {id : NodeId} (hid : id ∈ w.engine.graph.entries.keys) :
    ∃ held ∈ w.handles, id ∈ held.handle.nodeIds := by
  obtain ⟨entry, hentry⟩ := FinMap.exists_get_of_mem_keys hid
  have hpos := h.shared.positive id entry hentry
  have hle := h.shared.counted id entry hentry
  exact List.mem_flatMap.mp (List.count_pos_iff.mp (hpos.trans hle))

section Merge

variable {s : Subgraph V}

theorem entries_registerAll (h : w.Uniform shape) (hs : s.Whole shape) (id : NodeId)
    (entry : NodeEntry V)
    (hentry : (w.engine.registerAll s.descriptors).graph.entries.get id = some entry) :
    entry.kind = shape.kind id ∧ entry.deps = shape.deps id := by
  cases hold : w.engine.graph.entries.get id with
  | some old =>
    obtain rfl := Option.some.inj ((registerAll_of_get hold _).symm.trans hentry)
    exact h.entries id old hold
  | none =>
    obtain ⟨desc, hdesc, rfl, hkind, hdeps, -⟩ := registerAll_of_none hold hentry
    obtain ⟨hk, hd⟩ := hs.entries desc hdesc
    exact ⟨hkind.trans hk, hdeps.trans hd⟩

theorem mem_keys_of_nodeIds (hs : s.Whole shape) {id : NodeId} (hid : id ∈ s.nodeIds) :
    id ∈ (w.engine.registerAll s.descriptors).graph.entries.keys :=
  mem_keys_registerAll.mpr (Or.inr ((hs.built.ids id).mp hid))

/-- After a whole subgraph is registered every dependency of a registered node is. -/
theorem mem_keys_of_reads (h : w.Uniform shape) (hs : s.Whole shape) {u v : NodeId}
    (hu : Engine.Reads (w.engine.registerAll s.descriptors).graph u v) :
    u ∈ (w.engine.registerAll s.descriptors).graph.entries.keys := by
  have hv := Engine.mem_keys_of_reads hu
  obtain ⟨entry, hentry⟩ := FinMap.exists_get_of_mem_keys hv
  rw [Engine.Reads, Graph.depsOf_of_get hentry, (h.entries_registerAll hs v entry hentry).2] at hu
  rcases mem_keys_registerAll.mp hv with hv | hv
  · obtain ⟨held, hheld, hvh⟩ := h.owner hv
    have huh := h.whole held hheld v hvh u hu
    exact mem_keys_registerAll.mpr (Or.inl (h.shared.outlives held hheld u huh).1)
  · exact mem_keys_of_nodeIds hs (hs.deps v ((hs.built.ids v).mpr hv) u hu)

/-- **A merge of a whole subgraph reaches what the subgraph needs**: from a sink against the edges
everything is visited, up to what is active, and from there on everything is active. What is
registered under an id is what the subgraph says, since clients agree. -/
theorem reachesNeeded (h : w.Uniform shape) {descs : List (NodeDescriptor V)}
    (hs : (SubgraphBuilder.ofList descs).Whole shape) :
    (Action.merge descs).ReachesNeeded w := by
  rintro v - ⟨k, ⟨desc, hdesc, rfl, hsink⟩, hpath⟩
  have hk : desc.id ∈ (SubgraphBuilder.ofList descs).nodeIds :=
    (hs.built.ids desc.id).mpr (List.mem_map_of_mem hdesc)
  obtain ⟨entry, hentry⟩ := FinMap.exists_get_of_mem_keys (mem_keys_of_nodeIds (w := w) hs hk)
  have hkind : entry.kind = .sink := by
    rw [(h.entries_registerAll hs desc.id entry hentry).1, ← (hs.entries desc hdesc).1, hsink]
  suffices hv : v ∈ w.engine.active ∨ (w.engine.registerAll
      (SubgraphBuilder.ofList descs).descriptors).Visits desc.id v from
    hv.imp_right fun hvisit => ⟨desc.id, hk, ⟨entry, hentry, hkind⟩, hvisit⟩
  induction hpath using ReflTransGen.head_induction_on with
  | refl => exact Or.inr .refl
  | @head u x hux _ ih =>
    obtain ⟨desc', hdesc', rfl, hu⟩ := hux
    have hx := (hs.built.ids desc'.id).mpr (List.mem_map_of_mem hdesc')
    obtain ⟨entry', hentry'⟩ := FinMap.exists_get_of_mem_keys (mem_keys_of_nodeIds (w := w) hs hx)
    rw [(hs.entries desc' hdesc').2] at hu
    -- an active node has its dependencies active; from any other the visit goes on
    by_cases hactive : desc'.id ∈ w.engine.active
    · refine Or.inl (h.closed _ hactive u ?_)
      rwa [h.depsOf (h.shared.wired.active_subset hactive)]
    · refine Or.inr ((ih.resolve_left hactive).head ⟨hactive, ?_⟩)
      rwa [Engine.Reads, Graph.depsOf_of_get hentry',
        (h.entries_registerAll hs desc'.id entry' hentry').2]

theorem merge (h : w.Uniform shape) {descs : List (NodeDescriptor V)}
    (hs : (SubgraphBuilder.ofList descs).Whole shape) :
    (w.apply (.merge descs)).Uniform shape := by
  have hshared := h.shared.merge (h.reachesNeeded hs)
  have hp : (w.engine.registerAll (SubgraphBuilder.ofList descs).descriptors).pendingRemovals = [] :=
    h.shared.drained
  obtain ⟨hgrown, -, hrest⟩ := grown_activateSinks (SubgraphBuilder.ofList descs).nodeIds hp
  rw [apply_merge h.shared.drained] at hshared ⊢
  refine ⟨hshared, fun id entry hentry => ?_, fun held hheld => ?_, fun v hv u hu => ?_⟩
  · exact h.entries_registerAll hs id entry (hrest.entries ▸ hentry)
  · rcases List.mem_append.mp hheld with hheld | hheld
    · exact h.whole held hheld
    · rw [List.mem_singleton.mp hheld]
      exact hs.deps
  · rw [depsOf_congr hrest.entries] at hu
    by_cases hva : v ∈ w.engine.active
    · rw [depsOf_registerAll (h.shared.wired.active_subset hva)] at hu
      exact hgrown.mono (h.closed v hva u hu)
    · exact hgrown.closed v hv hva u hu (h.mem_keys_of_reads hs hu)

end Merge

/-- What survives is another handle's, and so are its dependencies. -/
theorem drop (h : w.Uniform shape) {i : ℕ} (hsafe : (Action.drop i).SparesOthers w) :
    (w.apply (.drop i)).Uniform shape := by
  have hshared := h.shared.drop hsafe
  cases hi : w.handles[i]? with
  | none => rwa [World.apply_drop_of_none hi]
  | some held =>
    rw [World.apply_drop h.shared.drained hi] at hshared ⊢
    refine ⟨hshared, fun id entry' hentry' => ?_,
      fun held' hheld' => h.whole held' (List.eraseIdx_subset hheld'), fun v hv u hu => ?_⟩
    · obtain ⟨entry, hentry, hk, hd, -⟩ :=
        (shrinks_release w.engine held.handle.nodeIds).entries id entry' hentry'
      rw [hk, hd]
      exact h.entries id entry hentry
    · obtain ⟨hva, hvreg⟩ := h.shared.wired.mem_active_release.mp hv
      rw [depsOf_release hvreg] at hu
      refine h.shared.wired.mem_active_release.mpr
        ⟨h.closed v hva u hu, h.shared.mem_release hi hsafe ?_⟩
      have hvo : v ∈ w.ownedByOthers i := by
        by_contra hnot
        exact h.shared.notMem_release hi hnot hvreg
      obtain ⟨held', hheld', hvh⟩ := World.mem_ownedByOthers.mp hvo
      rw [h.depsOf (h.shared.wired.active_subset hva)] at hu
      exact World.mem_ownedByOthers.mpr
        ⟨held', hheld', h.whole held' (List.eraseIdx_subset hheld') v hvh u hu⟩

end World.Uniform

/-- **Among clients that agree, shared nodes outlive the subgraphs that use them exactly when every
drop spares the others.** No client can know this of its own drop: it is a matter of what the others
have merged. -/
theorem outlives_iff_sparesOthers (shape : Shape) (as : List (Action V))
    (h : ∀ a ∈ as, a.Whole shape) :
    Runs.Always World.apply World.Outlives World.init as ↔
      Runs.AllSteps World.apply (fun w a => a.SparesOthers w) World.init as := by
  refine Runs.always_iff_allSteps (I := World.Uniform shape)
    (H := fun _ a => a.Whole shape) (fun w hw => hw.shared.outlives) (fun w a hw ha hc => ?_)
    (fun w a hw ha hc => ?_) .init (.of_forall h)
  · cases a with
    | merge descs => exact hw.merge ha.ofList
    | drop i => exact hw.drop hc
    | _ => exact ha.elim
  · cases a with
    | drop i => exact fun hout => hc (hw.shared.sparesOthers_of_outlives hout)
    | _ => exact absurd trivial hc

/-! ## Two clients of one source -/

open Sample

/-- A source, and a sink that reads it. -/
def client (sink : ℕ) : List (NodeDescriptor ℕ) := [node .source 0 [], node .sink sink [0]]

def clientShape : Shape where
  kind v := if v = nodeId 0 then .source else .sink
  deps v := if v = nodeId 0 then [] else [nodeId 0]

theorem whole_client {sink : ℕ} (h : sink ≠ 0) :
    (Action.merge (client sink)).Whole clientShape := by
  have hne : nodeId sink ≠ nodeId 0 := by simp [nodeId, h]
  refine ⟨by simp [client, node, hne.symm], fun desc hdesc => ?_⟩
  simp only [client, List.mem_cons, List.not_mem_nil, or_false] at hdesc
  rcases hdesc with rfl | rfl
  · simp [node, clientShape, client]
  · simp [node, clientShape, client, hne]

/-- Two merges of the same subgraph: dropping one of them leaves the other whole. -/
theorem outlives_iff_same : Runs.Always World.apply World.Outlives World.init
    [.merge (client 1), .merge (client 1), .drop 0] := by
  refine (outlives_iff _ fun a ha => ?_).mpr ⟨⟨trivial, fun v hv _ => Or.inr ?_⟩,
    ⟨trivial, fun v hv _ => Or.inl ?_⟩, ⟨by decide +kernel, trivial⟩, trivial⟩
  · simp only [List.mem_cons, List.not_mem_nil, or_false] at ha
    rcases ha with rfl | rfl | rfl <;> exact trivial
  · -- the first merge comes from the sink to both nodes
    refine ⟨nodeId 1, by decide, by decide +kernel, ?_⟩
    have hv' : v ∈ [nodeId 0, nodeId 1] := hv
    simp only [List.mem_cons, List.not_mem_nil, or_false] at hv'
    rcases hv' with rfl | rfl
    · refine .single ⟨by decide +kernel, ?_⟩
      show _ ∈ _
      decide +kernel
    · exact .refl
  · -- the second finds both active
    have hactive : ∀ v ∈ [nodeId 0, nodeId 1],
        v ∈ (World.run [.merge (client 1)]).engine.active := by decide +kernel
    exact hactive v hv

/-- Two clients share a source. Dropping the first takes the source from the second: its sink's
removal has released the source once, and the handle's list does it again. -/
theorem shared_source_removed :
    (∀ a ∈ ([.merge (client 1), .merge (client 2), .drop 0] : List (Action ℕ)),
      a.Whole clientShape) ∧
    Dag.Acyclic (fun u v => u ∈ clientShape.deps v) ∧
    ¬ Runs.Always World.apply World.Outlives World.init
      [.merge (client 1), .merge (client 2), .drop 0] := by
  refine ⟨fun a ha => ?_, ?_, fun h => ?_⟩
  · simp only [List.mem_cons, List.not_mem_nil, or_false] at ha
    rcases ha with rfl | rfl | rfl
    · exact whole_client (by decide)
    · exact whole_client (by decide)
    · trivial
  · refine .of_rank (fun v => if v = nodeId 0 then 0 else 1) fun u v huv => ?_
    simp only [clientShape] at huv
    split at huv
    · exact absurd huv List.not_mem_nil
    · next hv => simp [List.mem_singleton.mp huv, hv]
  · have hlast : (World.run [.merge (client 1), .merge (client 2), .drop 0]).Outlives := h.last
    have hsource := (hlast ⟨⟨[nodeId 0, nodeId 2]⟩, SubgraphBuilder.ofList (client 2)⟩
      (List.mem_singleton_self _) (nodeId 0) (by decide)).1
    exact absurd hsource (by decide +kernel)

/-! ## Dangling dependencies -/

/-- Every dependency of an active node is registered and active, and the edge is listed alike both
ways. -/
def World.NoDangling (w : World V) : Prop :=
  ∀ v ∈ w.engine.active, ∀ u ∈ w.engine.graph.depsOf v,
    u ∈ w.engine.graph.entries.keys ∧ u ∈ w.engine.active ∧
      (w.engine.topology.dependentsOf u).count v = (w.engine.topology.depsOf v).count u

/-- A drop that holds an active node holds its dependencies. Held is said of the state before, by
counts: the node lies in a set each of whose members is counted more often than the handle's list
and outside readers take away. -/
def Action.HoldsDeps (w : World V) : Action V → Prop
  | .drop i => ∀ held, w.handles[i]? = some held → ∀ v ∈ w.engine.active,
      RefCount.Held held.handle.nodeIds w.engine.graph.entries v →
        ∀ u ∈ w.engine.graph.depsOf v, RefCount.Held held.handle.nodeIds w.engine.graph.entries u
  | _ => True

theorem Engine.Ok.noDangling {w : World V} (h : w.engine.Ok) : w.NoDangling := fun v hv u hu =>
  ⟨h.active_subset (h.closed v hv u hu), h.closed v hv u hu, h.exact u v⟩

/-- An active node survives a release when it is held. -/
theorem Engine.Ok.mem_release_iff {e : Engine V} (h : e.Ok) {nodeIds : List NodeId} {v : NodeId}
    (hv : v ∈ e.active) : v ∈ (e.release nodeIds).graph.entries.keys ↔
      RefCount.Held nodeIds e.graph.entries v := by
  rw [entries_release, RefCount.mem_release_iff h.positive, RefCount.Held.reverse_iff,
    and_iff_right (h.active_subset hv)]

/-- **No active node has a dangling dependency exactly when every drop that holds an active node
holds its dependencies**, whatever is merged, sent and cycled in between.

The run may consist of all actions; what it activates has its dependencies registered at the time,
which is the hypothesis. Where it dangles, the dependency was taken by a drop while the node that
reads it stayed. -/
theorem noDangling_iff (as : List (Action V))
    (h : Runs.AllSteps World.apply (fun w a => a.Supplied w) World.init as) :
    Runs.Always World.apply World.NoDangling World.init as ↔
      Runs.AllSteps World.apply (fun w a => a.HoldsDeps w) World.init as := by
  refine Runs.always_iff_allSteps (I := fun w => w.engine.Ok)
    (H := fun w a => a.Supplied w) (fun w hw => hw.noDangling) (fun w a hw ha hc => ?_)
    (fun w a hw ha hc => ?_) .new h
  · by_cases hd : a.isDrop = false
    · exact World.ok_apply hw ha hd
    · cases a with
      | drop i =>
        cases hi : w.handles[i]? with
        | none => rwa [World.apply_drop_of_none hi]
        | some held =>
          rw [World.apply_drop hw.drained hi]
          refine hw.release fun v hv hreg u hu => ?_
          rw [hw.mem_release_iff hv] at hreg
          rw [hw.mem_release_iff (hw.closed v hv u hu)]
          exact hc held hi v hv hreg u hu
      | _ => exact absurd rfl hd
  -- A drop that holds an active node but not a dependency of it leaves that node dangling.
  · cases a with
    | drop i =>
      refine fun hno => hc fun held hi v hv hheld u hu => ?_
      rw [World.apply_drop hw.drained hi] at hno
      have hreg := (hw.mem_release_iff hv).mpr hheld
      obtain ⟨hureg, -⟩ := hno v (hw.wired.mem_active_release.mpr ⟨hv, hreg⟩) u
        (by rwa [depsOf_release hreg])
      exact (hw.mem_release_iff (hw.closed v hv u hu)).mp hureg
    | _ => exact absurd trivial hc

theorem noDangling_iff_same : Runs.Always World.apply World.NoDangling World.init
    [.merge (client 1), .merge (client 1), .drop 0] := by
  refine (noDangling_iff [.merge (client 1), .merge (client 1), .drop 0]
    ⟨fun id _ _ => supplied_of_closed (by decide +kernel) id,
      fun id _ _ => supplied_of_closed (by decide +kernel) id, trivial, trivial⟩).mpr
    ⟨trivial, trivial, fun held hi v hv _ u hu => ?_, trivial⟩
  obtain rfl : (⟨⟨[nodeId 0, nodeId 1]⟩, SubgraphBuilder.ofList (client 1)⟩ : Holding ℕ) = held :=
    Option.some.inj hi
  have hdeps : ∀ v ∈ (World.run [.merge (client 1), .merge (client 1)]).engine.active,
      ∀ u ∈ (World.run [.merge (client 1), .merge (client 1)]).engine.graph.depsOf v,
        u ∈ ({nodeId 0, nodeId 1} : Finset NodeId) := by decide +kernel
  exact ⟨{nodeId 0, nodeId 1}, hdeps v hv u hu, by decide +kernel⟩

/-- The drop that takes a shared source leaves the other client's active sink reading a node that
is not there. -/
theorem dangling_after_shared_drop :
    Runs.AllSteps World.apply (fun w a => a.Supplied w ∧
        Dag.Acyclic (Reads (w.apply a).engine.graph)) World.init
      [.merge (client 1), .merge (client 2), .drop 0] ∧
    ¬ Runs.Always World.apply World.NoDangling World.init
      [.merge (client 1), .merge (client 2), .drop 0] := by
  refine ⟨⟨⟨fun id _ _ => supplied_of_closed (by decide +kernel) id,
    acyclic_of_rank NodeId.typeId (by decide +kernel)⟩,
    ⟨fun id _ _ => supplied_of_closed (by decide +kernel) id,
    acyclic_of_rank NodeId.typeId (by decide +kernel)⟩,
    ⟨trivial, acyclic_of_rank NodeId.typeId (by decide +kernel)⟩, trivial⟩, fun h => ?_⟩
  have hlast : (World.run [.merge (client 1), .merge (client 2), .drop 0]).NoDangling := h.last
  have hsource := (hlast (nodeId 2) (by decide +kernel) (nodeId 0) (by decide +kernel)).1
  exact absurd hsource (by decide +kernel)

end ReactiveGraph
