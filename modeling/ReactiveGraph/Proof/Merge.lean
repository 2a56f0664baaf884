import ReactiveGraph.Proof.Activation
import ReactiveGraph.Proof.Deactivation

/-!
# What merging a subgraph does

A merge registers and then activates. Registration counts: a node that is there already keeps what
it is and counts one reference for each descriptor, a new one takes its first descriptor and counts
them all (`get_registerAll`). A builder hands over one descriptor for each id it was given, however
often it was given it. Activation starts from the sinks, so what is active afterwards is what was,
and what is visited from one (`mem_active_activateSinks`).

Registration is described by one function, `registeredEntry`, of the entry that was there and of the
list of descriptors, and everything that is asked about entries after a merge is read off it. It is
over any list: the direct registration of one node is the list of that node.

**The sinks are those of the subgraph's list of ids, looked up in the graph.** An id of the list may
be registered as something else than its descriptor says, if it was there before, and it is
activated if it is a sink there. The list may name a sink twice; the second time finds it active.

In the source each iteration calls `activate_sink`, which drains the removal queue. The merge has
drained it before, and nothing is put on it in between, so the drains are without effect
(`activateIfSink_cases` has this as its hypothesis). For the loop's own merge, which does not drain
first, the queue is empty throughout.

What a merge does to values is `Grown`, for all its sinks together (`grown_activateSinks`).
-/

namespace ReactiveGraph

variable {V : Type*}

/-! ## The builder -/

namespace SubgraphBuilder

/-- What the builder keeps: an id is registered when it has a descriptor, and has one only. The list
of ids has the same members, with repetitions. -/
structure Ok (b : SubgraphBuilder V) : Prop where
  nodup : (b.descriptors.map NodeDescriptor.id).Nodup
  registered : ∀ id, id ∈ b.registered ↔ id ∈ b.descriptors.map NodeDescriptor.id
  nodeIds : ∀ id, id ∈ b.nodeIds ↔ id ∈ b.registered

theorem Ok.new : (new : SubgraphBuilder V).Ok :=
  ⟨List.nodup_nil, by simp [SubgraphBuilder.new], by simp [SubgraphBuilder.new]⟩

theorem Ok.registerNode {b : SubgraphBuilder V} (h : b.Ok) (desc : NodeDescriptor V) :
    (b.registerNode desc).1.Ok := by
  unfold SubgraphBuilder.registerNode
  split
  · next hmem =>
    refine ⟨h.nodup, h.registered, fun id => ?_⟩
    rw [List.mem_append, List.mem_singleton, h.nodeIds]
    exact ⟨fun hid => hid.elim (fun hid => hid) fun heq => heq ▸ hmem, Or.inl⟩
  · next hnot =>
    refine ⟨?_, fun id => ?_, fun id => ?_⟩
    · rw [List.map_append, List.nodup_append]
      refine ⟨h.nodup, List.nodup_singleton _, ?_⟩
      rintro a ha b hb rfl
      rw [List.map_singleton, List.mem_singleton] at hb
      exact hnot ((h.registered _).mpr (hb ▸ ha))
    · rw [Finset.mem_insert, h.registered, List.map_append, List.mem_append, List.map_singleton,
        List.mem_singleton, or_comm]
    · rw [Finset.mem_insert, List.mem_append, h.nodeIds, List.mem_singleton, or_comm]

theorem foldl_registerNode (descs : List (NodeDescriptor V)) {b : SubgraphBuilder V} (h : b.Ok) :
    (descs.foldl (fun b desc => (b.registerNode desc).1) b).Ok ∧
      (∀ desc ∈ (descs.foldl (fun b desc => (b.registerNode desc).1) b).descriptors,
        desc ∈ b.descriptors ∨ desc ∈ descs) ∧
      (descs.foldl (fun b desc => (b.registerNode desc).1) b).nodeIds =
        b.nodeIds ++ descs.map NodeDescriptor.id := by
  induction descs generalizing b with
  | nil => exact ⟨h, fun desc hd => Or.inl hd, by simp⟩
  | cons d descs ih =>
    obtain ⟨hok, hdesc, hids⟩ := ih (h.registerNode d)
    have hd : ∀ desc ∈ (b.registerNode d).1.descriptors, desc ∈ b.descriptors ∨ desc = d := by
      intro desc hdesc
      unfold SubgraphBuilder.registerNode at hdesc
      split at hdesc
      · exact Or.inl hdesc
      · simpa using hdesc
    have hn : (b.registerNode d).1.nodeIds = b.nodeIds ++ [d.id] := by
      unfold SubgraphBuilder.registerNode
      split <;> rfl
    refine ⟨hok, fun desc hmem => ?_, ?_⟩
    · rcases hdesc desc hmem with hmem | hmem
      · exact (hd desc hmem).imp_right fun heq => by rw [heq]; exact List.mem_cons_self
      · exact Or.inr (List.mem_cons_of_mem _ hmem)
    · rw [List.foldl_cons, hids, hn, List.map_cons, List.append_assoc, List.singleton_append]

end SubgraphBuilder

/-- What a builder hands over. Theorems about merges ask for this where they need it, and not for
the builder. -/
structure Subgraph.Built (s : Subgraph V) : Prop where
  nodup : (s.descriptors.map NodeDescriptor.id).Nodup
  ids : ∀ id, id ∈ s.nodeIds ↔ id ∈ s.descriptors.map NodeDescriptor.id

theorem SubgraphBuilder.built_ofList (descs : List (NodeDescriptor V)) :
    (SubgraphBuilder.ofList descs).Built := by
  obtain ⟨hok, -, -⟩ := foldl_registerNode descs Ok.new
  exact ⟨hok.nodup, fun id => (hok.nodeIds id).trans (hok.registered id)⟩

theorem SubgraphBuilder.nodeIds_ofList (descs : List (NodeDescriptor V)) :
    (SubgraphBuilder.ofList descs).nodeIds = descs.map NodeDescriptor.id := by
  obtain ⟨-, -, hids⟩ := foldl_registerNode descs Ok.new
  exact hids

theorem SubgraphBuilder.mem_descriptors_ofList {descs : List (NodeDescriptor V)}
    {desc : NodeDescriptor V} (h : desc ∈ (SubgraphBuilder.ofList descs).descriptors) :
    desc ∈ descs := by
  obtain ⟨-, hdesc, -⟩ := foldl_registerNode descs Ok.new
  exact (hdesc desc h).resolve_left List.not_mem_nil

/-- Nodes with ids of their own are all handed over. -/
theorem SubgraphBuilder.descriptors_ofList {descs : List (NodeDescriptor V)}
    (h : (descs.map NodeDescriptor.id).Nodup) : (SubgraphBuilder.ofList descs).descriptors = descs := by
  suffices hfold : ∀ b : SubgraphBuilder V, (∀ desc ∈ descs, desc.id ∉ b.registered) →
      (descs.foldl (fun b desc => (b.registerNode desc).1) b).descriptors = b.descriptors ++ descs from
    hfold new fun desc _ => Finset.notMem_empty desc.id
  induction descs with
  | nil => exact fun b _ => (List.append_nil _).symm
  | cons d descs ih =>
    rw [List.map_cons, List.nodup_cons] at h
    intro b hb
    have hnew : b.registerNode d =
        (⟨b.descriptors ++ [d], b.nodeIds ++ [d.id], insert d.id b.registered⟩, true) :=
      if_neg (hb d List.mem_cons_self)
    rw [List.foldl_cons, hnew, ih h.2, List.append_assoc, List.singleton_append]
    intro desc hdesc hmem
    rcases Finset.mem_insert.mp hmem with heq | hmem
    · exact h.1 (heq ▸ List.mem_map_of_mem hdesc)
    · exact hb desc (List.mem_cons_of_mem _ hdesc) hmem

/-! ## Registration -/

namespace Graph

theorem get_registerNode (graph : Graph V) (id : NodeId) (kind : NodeKind) (deps : List NodeId)
    (impl : AnyNodeImpl V) (id' : NodeId) :
    (graph.registerNode id kind deps impl).1.entries.get id' = if id' = id then
        some (((graph.entries.get id).map fun entry =>
          { entry with refCount := entry.refCount + 1 }).getD ⟨kind, deps, 1, impl⟩)
      else graph.entries.get id' := by
  unfold registerNode
  split
  · next entry hentry => simp only [FinMap.get_insert, hentry, Option.map_some, Option.getD_some]
  · next hentry => simp only [FinMap.get_insert, hentry, Option.map_none, Option.getD_none]

@[simp] theorem valueStore_registerNode (graph : Graph V) (id : NodeId) (kind : NodeKind)
    (deps : List NodeId) (impl : AnyNodeImpl V) :
    (graph.registerNode id kind deps impl).1.valueStore = graph.valueStore := by
  unfold registerNode
  split <;> rfl

@[simp] theorem sourceRx_registerNode (graph : Graph V) (id : NodeId) (kind : NodeKind)
    (deps : List NodeId) (impl : AnyNodeImpl V) :
    (graph.registerNode id kind deps impl).1.sourceRx = graph.sourceRx := by
  unfold registerNode
  split <;> rfl

@[simp] theorem bridge_registerNode (graph : Graph V) (id : NodeId) (kind : NodeKind)
    (deps : List NodeId) (impl : AnyNodeImpl V) :
    (graph.registerNode id kind deps impl).1.bridge = graph.bridge := by
  unfold registerNode
  split <;> rfl

end Graph

namespace Engine

variable {e e' : Engine V}

/-- The entry a list of descriptors leaves at an id. An old entry wins over every descriptor, and of
several descriptors the first. -/
def registeredEntry (old : Option (NodeEntry V)) (descs : List (NodeDescriptor V)) (id : NodeId) :
    Option (NodeEntry V) :=
  match old with
  | some entry => some { entry with
      refCount := entry.refCount + (descs.map NodeDescriptor.id).count id }
  | none => (descs.find? (·.id = id)).map fun desc =>
      ⟨desc.kind, desc.deps, (descs.map NodeDescriptor.id).count id, desc.nodeImpl⟩

/-- **Registration counts descriptors.** By induction on the list, with the registry of the
moment. -/
theorem get_registerAll (e : Engine V) (descs : List (NodeDescriptor V)) (id : NodeId) :
    (e.registerAll descs).graph.entries.get id =
      registeredEntry (e.graph.entries.get id) descs id := by
  induction descs generalizing e with
  | nil =>
    simp only [registerAll, List.foldl_nil, registeredEntry]
    cases e.graph.entries.get id <;> rfl
  | cons d descs ih =>
    have hcons : e.registerAll (d :: descs) = Engine.registerAll
      { e with graph := (e.graph.registerNode d.id d.kind d.deps d.nodeImpl).1 } descs := rfl
    rw [hcons, ih, Graph.get_registerNode]
    by_cases hid : id = d.id
    · subst hid
      rw [if_pos rfl]
      -- a node that is there is counted once more; one that is not is entered as the first
      -- descriptor says
      cases hold : e.graph.entries.get d.id with
      | some entry =>
        simp only [registeredEntry, Option.map_some, Option.getD_some, List.map_cons,
          List.count_cons_self, Option.some.injEq, NodeEntry.mk.injEq, true_and, and_true]
        omega
      | none =>
        simp only [registeredEntry, Option.map_none, Option.getD_none, List.map_cons,
          List.count_cons_self, List.find?_cons, decide_true, Option.map_some, Option.some.injEq,
          NodeEntry.mk.injEq, true_and, and_true]
        omega
    · rw [if_neg hid]
      have hcount : ((d :: descs).map NodeDescriptor.id).count id =
          (descs.map NodeDescriptor.id).count id := by
        rw [List.map_cons, List.count_cons_of_ne (Ne.symm hid)]
      have hfind : (d :: descs).find? (·.id = id) = descs.find? (·.id = id) := by
        rw [List.find?_cons_of_neg]
        simpa using Ne.symm hid
      simp only [registeredEntry, hcount, hfind]

/-- Registration writes entries and nothing else. -/
theorem graph_registerAll (e : Engine V) (descs : List (NodeDescriptor V)) :
    (e.registerAll descs).graph.valueStore = e.graph.valueStore ∧
      (e.registerAll descs).graph.sourceRx = e.graph.sourceRx ∧
      (e.registerAll descs).graph.bridge = e.graph.bridge := by
  unfold registerAll
  induction descs generalizing e with
  | nil => exact ⟨rfl, rfl, rfl⟩
  | cons d descs ih =>
    obtain ⟨h1, h2, h3⟩ :=
      ih { e with graph := (e.graph.registerNode d.id d.kind d.deps d.nodeImpl).1 }
    exact ⟨h1.trans (by simp), h2.trans (by simp), h3.trans (by simp)⟩

/-- A registered node keeps what it is. -/
theorem registerAll_of_get {id : NodeId} {entry : NodeEntry V}
    (h : e.graph.entries.get id = some entry) (descs : List (NodeDescriptor V)) :
    (e.registerAll descs).graph.entries.get id = some { entry with
      refCount := entry.refCount + (descs.map NodeDescriptor.id).count id } := by
  rw [get_registerAll, h]
  rfl

theorem mem_keys_registerAll {descs : List (NodeDescriptor V)} {id : NodeId} :
    id ∈ (e.registerAll descs).graph.entries.keys ↔
      id ∈ e.graph.entries.keys ∨ id ∈ descs.map NodeDescriptor.id := by
  rw [FinMap.mem_keys, get_registerAll, FinMap.mem_keys]
  cases e.graph.entries.get id with
  | some entry => simp [registeredEntry]
  | none => simp [registeredEntry]

/-- A node that was not registered is what one of its descriptors says. There may be several that
say different things; the first has decided. -/
theorem registerAll_of_none {id : NodeId} {entry : NodeEntry V} {descs : List (NodeDescriptor V)}
    (h : e.graph.entries.get id = none)
    (h' : (e.registerAll descs).graph.entries.get id = some entry) :
    ∃ desc ∈ descs, desc.id = id ∧ entry.kind = desc.kind ∧ entry.deps = desc.deps ∧
      entry.nodeImpl = desc.nodeImpl := by
  rw [get_registerAll, h] at h'
  obtain ⟨desc, hdesc, rfl⟩ := Option.map_eq_some_iff.mp h'
  exact ⟨desc, List.mem_of_find?_eq_some hdesc, by simpa using List.find?_some hdesc, rfl, rfl, rfl⟩

/-- What is registered stays registered with its kind, dependencies and implementation, and
whatever happens along one dependency happens along it afterwards. -/
theorem depsOf_registerAll {id : NodeId} (h : id ∈ e.graph.entries.keys)
    (descs : List (NodeDescriptor V)) :
    (e.registerAll descs).graph.depsOf id = e.graph.depsOf id := by
  obtain ⟨entry, hentry⟩ := FinMap.exists_get_of_mem_keys h
  rw [Graph.depsOf_of_get hentry, Graph.depsOf_of_get (registerAll_of_get hentry descs)]

theorem Wired.registerAll (h : Wired e) (descs : List (NodeDescriptor V)) :
    Wired (e.registerAll descs) where
  keys := h.keys
  deps id deps hdeps := by
    obtain ⟨entry, hentry, rfl⟩ := h.deps id deps hdeps
    exact ⟨_, registerAll_of_get hentry descs, rfl⟩

/-! ## Activating the sinks -/

/-- With nothing to drain, one iteration of the loop activates a sink and skips anything else. -/
theorem activateIfSink_cases (hp : e.pendingRemovals = []) (id : NodeId) :
    (HasKind e.graph id .sink ∧ e.activateIfSink id = e.activate id) ∨
      (¬ HasKind e.graph id .sink ∧ e.activateIfSink id = e) := by
  unfold activateIfSink HasKind
  cases hentry : e.graph.entries.get id with
  | none => exact Or.inr ⟨by simp, rfl⟩
  | some entry =>
    by_cases hk : entry.kind = .sink
    · exact Or.inl ⟨⟨entry, rfl, hk⟩, by
        simp only [if_pos hk, activateSink, drainPendingRemovals_of_nil hp]⟩
    · exact Or.inr ⟨by simp [hk], if_neg hk⟩

/-- **The new active nodes of a merge are visited from its sinks**, and its sinks are active. By
induction on the list of ids; each iteration grows the engine that the ones before have left, and
what they have computed stays. -/
theorem grown_activateSinks (ids : List NodeId) (hp : e.pendingRemovals = []) :
    Grown (fun u => ∃ s ∈ ids, HasKind e.graph s .sink ∧ e.Visits s u) e
        (ids.foldl activateIfSink e) ∧
      (∀ s ∈ ids, HasKind e.graph s .sink → s ∈ (ids.foldl activateIfSink e).active) ∧
      SameRest e (ids.foldl activateIfSink e) := by
  induction ids generalizing e with
  | nil => exact ⟨.refl _ e, by simp, .refl e⟩
  | cons id ids ih =>
    rw [List.foldl_cons]
    -- one id of the list: a sink is activated, and anything else is left alone
    have hstep : Grown (fun u => ∃ s ∈ id :: ids, HasKind e.graph s .sink ∧ e.Visits s u) e
        (e.activateIfSink id) ∧ (HasKind e.graph id .sink → id ∈ (e.activateIfSink id).active) ∧
        SameRest e (e.activateIfSink id) := by
      obtain ⟨hs, h⟩ | ⟨hs, h⟩ := activateIfSink_cases hp id
      · obtain ⟨hg, hin⟩ := grown_activate e id
        rw [h]
        refine ⟨hg.weaken fun u hu => ⟨id, List.mem_cons_self, hs, hu⟩, fun _ => hin ?_,
          sameRest_activate e id⟩
        obtain ⟨entry, hentry, -⟩ := hs
        exact FinMap.mem_keys_of_get hentry
      · rw [h]
        exact ⟨.refl _ e, fun hs' => absurd hs' hs, .refl e⟩
    obtain ⟨hg, hin, hrest⟩ := hstep
    obtain ⟨hg', hin', hrest'⟩ := ih (hrest.pendingRemovals.trans hp)
    refine ⟨hg.trans (hg'.weaken fun u ⟨s, hs, hsink, hu⟩ => ⟨s, List.mem_cons_of_mem _ hs,
      (HasKind.congr hrest.entries s .sink).mp hsink, hu.anti hrest.entries hg.mono⟩),
      fun s hs hsink => ?_, hrest.trans hrest'⟩
    rcases List.mem_cons.mp hs with rfl | hs
    · exact hg'.mono (hin hsink)
    · exact hin' s hs ((HasKind.congr hrest.entries s .sink).mpr hsink)

theorem sameRest_activateSinks (ids : List NodeId) (hp : e.pendingRemovals = []) :
    SameRest e (ids.foldl activateIfSink e) := (grown_activateSinks ids hp).2.2

/-- A merge registers its nodes once the removals are made; of the rest it touches nothing. -/
theorem sameRest_merge (e : Engine V) (s : Subgraph V) :
    SameRest (e.drainPendingRemovals.registerAll s.descriptors) (e.merge s).1 :=
  have hp : (e.drainPendingRemovals.registerAll s.descriptors).pendingRemovals = [] :=
    pendingRemovals_drainPendingRemovals e
  sameRest_activateSinks s.nodeIds hp

/-- **What is active after a merge**: what was, and what is registered and visited from a sink. The
visits are in the graph before the activations, so the order of the sinks does not show. -/
theorem mem_active_activateSinks {ids : List NodeId} (hp : e.pendingRemovals = []) {v : NodeId} :
    v ∈ (ids.foldl activateIfSink e).active ↔ v ∈ e.active ∨
      v ∈ e.graph.entries.keys ∧ ∃ k ∈ ids, HasKind e.graph k .sink ∧ e.Visits k v := by
  obtain ⟨hg, hin, -⟩ := grown_activateSinks ids hp
  constructor
  · intro hv
    by_cases hva : v ∈ e.active
    · exact Or.inl hva
    · exact Or.inr ⟨hg.registered v hv hva, hg.bound v hv hva⟩
  · rintro (hva | ⟨hreg, k, hk, hsink, hvisit⟩)
    · exact hg.mono hva
    · exact hg.mem_of_visits (hin k hk hsink) hvisit hreg

theorem wired_activateSinks (ids : List NodeId) (hp : e.pendingRemovals = []) (hw : Wired e) :
    Wired (ids.foldl activateIfSink e) := by
  induction ids generalizing e with
  | nil => exact hw
  | cons id ids ih =>
    rw [List.foldl_cons]
    obtain ⟨-, h⟩ | ⟨-, h⟩ := activateIfSink_cases hp id
    · rw [h]
      exact ih ((sameRest_activate e id).pendingRemovals.trans hp) (hw.activate id)
    · rw [h]
      exact ih hp hw

theorem exact_activateSinks (ids : List NodeId) (hp : e.pendingRemovals = []) (hw : Wired e)
    (hex : Exact e.topology) : Exact (ids.foldl activateIfSink e).topology := by
  induction ids generalizing e with
  | nil => exact hex
  | cons id ids ih =>
    rw [List.foldl_cons]
    obtain ⟨-, h⟩ | ⟨-, h⟩ := activateIfSink_cases hp id
    · rw [h]
      exact ih ((sameRest_activate e id).pendingRemovals.trans hp) (hw.activate id)
        (exact_activate hw hex id)
    · rw [h]
      exact ih hp hw hex

end Engine

end ReactiveGraph
