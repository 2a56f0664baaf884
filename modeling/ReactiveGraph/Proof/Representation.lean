import ReactiveGraph.Proof.Session
import ReactiveGraph.Proof.World

/-!
# What the engine's maps have to do with each other

Six maps say what the engine's nodes are, and each operation writes them one after the other.
`Engine.Represented` is what they agree on between calls, whatever was registered, merged, dropped
and deactivated, in whatever order: no assumption is made that dependencies are registered, or not
circular, or listed once. What is not among the clauses is not true without such assumptions: a
dependency of an active node may be gone, and an edge to it is then listed one way only.

**One lemma for each elementary write.** A removal is made of lowered counts and removed entries, an
activation of marks and finished nodes, a registration of single nodes, and a cycle writes values
and nothing that is represented. Each of these keeps the clauses together, since a removal
writes all of the maps; the rules for deactivation and activation then give the operations, and one
step of a run is one of these.

Three of the clauses were proved before, each with its own reasons: the wiring in `World.lean`, the
edges in `Topology.lean`, the counts in the library. Here they are joined with the one about guards,
and the whole is shown to be kept by every call of a `Session`, the finest grain there is; in
between two writes of one call it need not hold, and nobody can look.

Values are not represented: a value may be in the store for a node that is not registered, when it
was received after the node had gone.
-/

namespace ReactiveGraph

namespace Engine

variable {V : Type*} {e e' : Engine V}

/-- What the maps agree on between calls. A guard is for a source that is active; not every active
source has one. -/
structure Represented (e : Engine V) : Prop where
  /-- The nodes in the topology are the active ones. -/
  keys : e.topology.deps.keys = e.active
  /-- An active node is registered, and its dependencies in the topology are its entry's. -/
  deps : ∀ id ∈ e.active, ∃ entry, e.graph.entries.get id = some entry ∧
    e.topology.deps.get id = some entry.deps
  /-- A guard is an active source's. -/
  guards : ∀ id ∈ e.guards, id ∈ e.active ∧ HasKind e.graph id .source
  counted : ∀ id entry, e.graph.entries.get id = some entry → 1 ≤ entry.refCount
  /-- An edge is listed among the dependents at most as often as among the dependencies. -/
  edges : ∀ u v, (e.topology.dependentsOf u).count v ≤ (e.topology.depsOf v).count u

namespace Represented

theorem new : (Engine.new : Engine V).Represented where
  keys := rfl
  deps id hid := absurd hid (Finset.notMem_empty id)
  guards id hid := absurd hid (Finset.notMem_empty id)
  counted id entry h := by simp [Engine.new, Graph.new] at h
  edges := Topology.AtMost.new

theorem wired (h : e.Represented) : Wired e where
  keys := h.keys
  deps id deps hdeps := by
    have hid : id ∈ e.active := by
      rw [← h.keys]
      exact FinMap.mem_keys_of_get hdeps
    obtain ⟨entry, hentry, hget⟩ := h.deps id hid
    exact ⟨entry, hentry, Option.some.inj (hget.symm.trans hdeps)⟩

/-- A node downstream of another is active. -/
theorem active_of_dirty (h : e.Represented) {v : NodeId} (hv : e.Dirty v) : v ∈ e.active := by
  obtain ⟨s, -, hsv⟩ := hv
  obtain ⟨u, -, huv⟩ := Relation.TransGen.tail'_iff.mp hsv
  rw [← h.keys]
  by_contra hnot
  have hmem := Topology.AtMost.mem_depsOf h.edges huv
  rw [Topology.depsOf_of_notMem hnot] at hmem
  exact List.not_mem_nil hmem

/-- What is known of the wiring, the guards, the counts and the edges, put together. -/
theorem of_wired (hw : Wired e)
    (hguards : ∀ id ∈ e.guards, id ∈ e.active ∧ HasKind e.graph id .source)
    (hcount : RefCount.Positive e.graph.entries) (hedges : e.topology.AtMost) :
    e.Represented where
  keys := hw.keys
  deps id hid := by
    rw [← hw.keys] at hid
    obtain ⟨deps, hdeps⟩ := FinMap.exists_get_of_mem_keys hid
    obtain ⟨entry, hentry, rfl⟩ := hw.deps id deps hdeps
    exact ⟨entry, hentry, hdeps⟩
  guards := hguards
  counted := hcount
  edges := hedges

/-! ## One step -/

theorem lower (h : e.Represented) {id : NodeId} {entry : NodeEntry V}
    (hentry : e.graph.entries.get id = some entry) (hpos : 0 < entry.refCount - 1) :
    (e.setEntries (e.graph.entries.insert id
      { entry with refCount := entry.refCount - 1 })).Represented := by
  refine of_wired (h.wired.lower hentry _) (fun id' hid' => ?_)
    (RefCount.Positive.insert_withCount (c := entry) h.counted hpos) h.edges
  obtain ⟨hact, entry', hentry', hkind⟩ := h.guards id' hid'
  refine ⟨hact, ?_⟩
  have hget :=
    FinMap.get_insert e.graph.entries id id' { entry with refCount := entry.refCount - 1 }
  by_cases hid : id' = id
  · subst hid
    obtain rfl := Option.some.inj (hentry.symm.trans hentry')
    exact ⟨_, hget.trans (if_pos rfl), hkind⟩
  · exact ⟨entry', hget.trans ((if_neg hid).trans hentry'), hkind⟩

/-- A removal takes the guard of a source with it, and nothing else has one. The edges into the node
are gone from the lists of its dependencies, those out of it with its own list. -/
theorem removeEntry (h : e.Represented) {id : NodeId} {entry : NodeEntry V}
    (hentry : e.graph.entries.get id = some entry) :
    (e.removeEntry id entry.kind).Represented := by
  refine of_wired (h.wired.removeEntry id entry.kind) (fun id' hid' => ?_)
    (RefCount.Positive.remove h.counted id) (Topology.AtMost.removeNode h.edges id)
  have hguard : id' ∈ e.guards ∧ id' ≠ id := by
    have hmem : id' ∈ (if entry.kind = .source then e.guards.erase id else e.guards) := hid'
    split at hmem
    · exact ⟨Finset.mem_of_mem_erase hmem, Finset.ne_of_mem_erase hmem⟩
    · next hkind =>
      refine ⟨hmem, ?_⟩
      rintro rfl
      exact hkind ((h.guards id' hmem).2.unique ⟨entry, hentry, rfl⟩).symm
  obtain ⟨hact, entry', hentry', hkind⟩ := h.guards id' hguard.1
  exact ⟨Finset.mem_erase_of_ne_of_mem hguard.2 hact, entry',
    (FinMap.get_remove_of_ne e.graph.entries hguard.2).trans hentry', hkind⟩

theorem markActive (h : e.Represented) {id : NodeId} {entry : NodeEntry V} (hid : id ∉ e.active)
    (hentry : e.graph.entries.get id = some entry) :
    (e.markActive id entry.deps).Represented := by
  refine of_wired (h.wired.markActive hentry) (fun id' hid' => ?_) h.counted
    (Topology.AtMost.addNode h.edges (by rwa [h.keys]) entry.deps)
  obtain ⟨hact, hkind⟩ := h.guards id' hid'
  exact ⟨Finset.mem_insert_of_mem hact, hkind⟩

theorem finishActivation (h : e.Represented) {id : NodeId} {entry : NodeEntry V}
    (hid : id ∈ e.active) (hentry : e.graph.entries.get id = some entry) :
    (e.finishActivation id entry.kind).Represented := by
  obtain ⟨ht, ha⟩ := topology_finishActivation e id entry.kind
  have hr := (sameRest_finishActivation e id entry.kind).entries
  have hguards : ∀ id' ∈ (e.finishActivation id entry.kind).guards,
      id' ∈ e.active ∧ HasKind e.graph id' .source := by
    intro id' hid'
    cases hkind : entry.kind with
    | source =>
      -- the one step that takes a guard: the node's own
      rw [hkind, Engine.finishActivation, invokeActivate] at hid'
      split at hid'
      · rcases Finset.mem_insert.mp hid' with rfl | hid'
        · exact ⟨hid, entry, hentry, hkind⟩
        · exact h.guards id' hid'
      · exact h.guards id' hid'
    | compute =>
      rw [hkind, Engine.finishActivation, initialCompute] at hid'
      refine h.guards id' ?_
      split at hid'
      · split at hid'
        · simp only at hid'
          split at hid' <;> exact hid'
        · exact hid'
      · exact hid'
    | sink => exact h.guards id' (by rwa [hkind] at hid')
    | asyncCompute => exact h.guards id' (by rwa [hkind] at hid')
  refine of_wired (h.wired.finishActivation id entry.kind) (fun id' hid' => ?_)
    (by rw [hr]; exact h.counted) (by rw [ht]; exact h.edges)
  obtain ⟨hact, hkind⟩ := hguards id' hid'
  exact ⟨by rwa [ha], (HasKind.congr hr id' .source).mpr hkind⟩

theorem registerNode (h : e.Represented) (id : NodeId) (kind : NodeKind) (deps : List NodeId)
    (nodeImpl : AnyNodeImpl V) : Represented
      { e with graph := (e.graph.registerNode id kind deps nodeImpl).1 } := by
  have heq : ({ e with graph := (e.graph.registerNode id kind deps nodeImpl).1 } : Engine V) =
      e.registerAll [⟨id, kind, deps, nodeImpl⟩] := rfl
  rw [heq]
  refine of_wired (h.wired.registerAll _) (fun id' hid' => ?_)
    (positive_registerAll h.counted _) h.edges
  obtain ⟨hact, entry, hentry, hkind⟩ := h.guards id' hid'
  exact ⟨hact, _, registerAll_of_get hentry _, hkind⟩

theorem sameNodes (h : e.Represented) (hs : SameNodes e e') : e'.Represented :=
  of_wired (h.wired.congr hs.topology hs.active hs.entries)
    (fun id hid => by
      obtain ⟨hact, hkind⟩ := h.guards id (by rwa [← hs.guards])
      exact ⟨by rwa [hs.active], (HasKind.congr hs.entries id .source).mpr hkind⟩)
    (by rw [hs.entries]; exact h.counted) (by rw [hs.topology]; exact h.edges)

theorem stable : Stable (Represented (V := V)) where
  lower _ _ _ h hentry hpos := h.lower hentry hpos
  remove _ _ _ h hentry _ := h.removeEntry hentry
  mark _ _ _ h hid hentry := h.markActive hid hentry
  finish _ _ _ h hid hentry := h.finishActivation hid hentry
  register _ id kind deps nodeImpl h := h.registerNode id kind deps nodeImpl
  other _ _ h hs := h.sameNodes hs

/-- A cycle writes values and nothing that is represented. -/
theorem runCycleImpl (h : e.Represented) (o : CycleOrder) (parallel : Bool) :
    (runCycleImpl o parallel e).Represented := by
  have hf := sameFrame_runCycleImpl o parallel e
  refine of_wired (h.wired.sameFrame hf) (fun id hid => ?_) (by rw [hf.entries]; exact h.counted)
    (by rw [hf.topology]; exact h.edges)
  obtain ⟨hact, hkind⟩ := h.guards id (by rwa [← hf.guards])
  exact ⟨by rwa [hf.active], (HasKind.congr hf.entries id .source).mpr hkind⟩

end Represented

end Engine

variable {V : Type*}

/-- **Every call keeps the representation.** One case for each call; most are a combination of the
elementary writes, and those that touch no map are immediate. -/
theorem Session.represented_apply {s : Session V} (h : s.engine.Represented) (c : Call V) :
    (s.apply c).engine.Represented :=
  engine_apply_induction Engine.Represented.stable c h fun o parallel _ hd =>
    hd.runCycleImpl o parallel

/-- **The engine's maps agree in every state of every run**, whatever is registered, merged,
dropped, deactivated and activated, with whatever dependencies.

It holds at the start, where all maps are empty, and every call keeps it. There is no hypothesis on
the calls, so a call that the engine itself would never make, such as a deactivation of a node that
somebody still holds, is covered. -/
theorem always_represented (calls : List (Call V)) :
    Runs.Always Session.apply (fun s => s.engine.Represented) Session.init calls :=
  Runs.always_of_step (I := fun s : Session V => s.engine.Represented)
    (fun _ c h => Session.represented_apply h c) (fun _ h => h) Engine.Represented.new

end ReactiveGraph
