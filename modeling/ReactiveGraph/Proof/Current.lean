import ReactiveGraph.Proof.Batching
import ReactiveGraph.Proof.GlitchFree
import ReactiveGraph.Proof.Quiescence

/-!
# An engine that is up to date

Four things make an engine up to date with the values it has drained and the futures it has given
out (`Current`). A compute node has what it computes. A node that is called for what it does
outside, a sink or an async node, was last called with the values its dependencies have. If what it
was called for is a future, the last future that has come of it is the one its dependencies ask for
now. And what is received from outside, by sources and async nodes, is held as it was received last.

Registering, activating, removing and running a cycle all keep this, each for its own reason. No
history is asked for but that of the nodes that have not been removed in between (`lasts`); a node
that comes back starts again.

**`lasts` is a parameter.** It is the set of nodes the statement speaks of, and a removal may only
shrink it. A node that was removed has lost its value, and the values drained for it before are
still in the lists: without the restriction the clauses about sources would be false after any
removal.

**Reasons.** An activation gives values to new nodes only, and calls neither sinks nor async nodes.
A removal that leaves no node without a dependency takes nothing away that a remaining node reads. A
cycle executes every dirty node once, at a place in the list where its dependencies have the values
they end with (`Regular.exists_split`), and a node that is not dirty has seen nothing change.

It is about an engine and three lists, not about threads; `Coherence.lean` ties the lists to what a
run has drained and given out. Cycles are sequential, as the event loop's are.
-/

namespace ReactiveGraph

variable {V : Type*}

/-! ## The last of a list -/

section LastSent

variable {α : Type*} {updates updates' : List (NodeId × α)} {id : NodeId}

theorem lastSent_append (updates updates' : List (NodeId × α)) (id : NodeId) :
    lastSent (updates ++ updates') id = (lastSent updates' id).or (lastSent updates id) := by
  simp only [lastSent, List.filter_append, List.getLast?_append, Option.map_or]

theorem lastSent_of_notMem (h : id ∉ updates.map Prod.fst) : lastSent updates id = none := by
  have hnil : updates.filter (fun update => update.1 = id) = [] :=
    List.filter_eq_nil_iff.mpr fun u hu hid => h (by
      rw [← of_decide_eq_true hid]
      exact List.mem_map_of_mem hu)
  rw [lastSent, hnil]
  rfl

/-- What comes before and after an element does not matter, if it is for other nodes. -/
theorem lastSent_of_split {l l' m : List (NodeId × α)} (hl' : id ∉ l'.map Prod.fst) :
    lastSent (l ++ m ++ l') id = (lastSent m id).or (lastSent l id) := by
  rw [lastSent_append, lastSent_of_notMem hl', Option.none_or, lastSent_append]

end LastSent

/-! ## Nodes that are called for what they do outside -/

/-- Sinks and async nodes. -/
def NodeKind.Outward (kind : NodeKind) : Prop := kind = .sink ∨ kind = .asyncCompute

/-- Called for the dependencies `deps`, `compute_async` looks at nothing but their values. As for
`compute`, the builders' nodes do. -/
def AnyNodeImpl.AsyncReadsDeps (impl : AnyNodeImpl V) (deps : List NodeId) : Prop :=
  ∀ store store', (∀ d ∈ deps, store.getById d = store'.getById d) →
    impl.computeAsync deps store = impl.computeAsync deps store'

namespace Engine

variable {e e' : Engine V}

/-- What the nodes have seen at their dependencies, call after call. -/
def seen (effects : List (Effect V)) : List (NodeId × List (Option V)) :=
  effects.map fun effect => (effect.nodeId, effect.reads)

/-- The futures of a list of spawns, with their nodes. -/
def futures (spawns : List (AsyncSpawn V)) : List (NodeId × V) :=
  spawns.map fun s => (s.nodeId, s.future)

/-! ### One execution among others -/

theorem spawnsAlong_append (e : Engine V) (a b : List NodeId) (store : ValueStore V) :
    e.spawnsAlong (a ++ b) store =
      e.spawnsAlong a store ++ e.spawnsAlong b (e.storeAfter a store) := by
  induction a generalizing store with
  | nil => rfl
  | cons k a ih =>
    rw [List.cons_append, spawnsAlong, ih, spawnsAlong, List.append_assoc]
    rfl

theorem notMem_seen_effectsAlong {l : List NodeId} {v : NodeId} (hv : v ∉ l)
    (store : ValueStore V) : v ∉ (seen (e.effectsAlong l store)).map Prod.fst := by
  intro hmem
  obtain ⟨_, hcall, rfl⟩ := List.mem_map.mp hmem
  obtain ⟨effect, heffect, rfl⟩ := List.mem_map.mp hcall
  obtain ⟨a, k, b, rfl, hk⟩ := mem_effectsAlong heffect
  exact hv (by simp [(reads_nodeEffects hk).1])

theorem notMem_futures_spawnsAlong {l : List NodeId} {v : NodeId} (hv : v ∉ l)
    (store : ValueStore V) : v ∉ (futures (e.spawnsAlong l store)).map Prod.fst := by
  rw [futures, List.map_map]
  exact fun hmem => hv ((e.sublist_spawnsAlong l store).subset hmem)

/-- What a node that is called saw, where it stands in the list: the store as the nodes before it
have left it, and nothing later, since it does not come again. -/
theorem lastSent_seen_effectsAlong {a b : List NodeId} {v : NodeId} {entry : NodeEntry V}
    (hentry : e.graph.entries.get v = some entry) (hk : entry.kind.Outward) (hb : v ∉ b)
    (store : ValueStore V) : lastSent (seen (e.effectsAlong (a ++ v :: b) store)) v =
      some ((e.storeAfter a store).reads entry.deps) := by
  have hone : lastSent (seen (e.nodeEffects v (e.storeAfter a store))) v =
      some ((e.storeAfter a store).reads entry.deps) := by
    rcases hk with hk | hk <;> simp [nodeEffects, hentry, hk, seen, lastSent, Effect.reads,
      Effect.nodeId]
  rw [effectsAlong_append, effectsAlong, ← List.append_assoc, seen, List.map_append,
    List.map_append]
  refine (lastSent_of_split (notMem_seen_effectsAlong hb _)).trans ?_
  rw [← seen, hone, Option.some_or]

/-- And the future it gave. -/
theorem lastSent_futures_spawnsAlong {a b : List NodeId} {v : NodeId} {entry : NodeEntry V}
    (hentry : e.graph.entries.get v = some entry) (hk : entry.kind = .asyncCompute) (ha : v ∉ a)
    (hb : v ∉ b) (store : ValueStore V) :
    lastSent (futures (e.spawnsAlong (a ++ v :: b) store)) v =
      entry.nodeImpl.computeAsync entry.deps (e.storeAfter a store) := by
  have hone : lastSent (futures (e.nodeSpawns v (e.storeAfter a store))) v =
      entry.nodeImpl.computeAsync entry.deps (e.storeAfter a store) := by
    simp only [nodeSpawns, hentry, hk, if_true]
    cases entry.nodeImpl.computeAsync entry.deps (e.storeAfter a store) <;>
      simp [futures, lastSent]
  rw [spawnsAlong_append, spawnsAlong, ← List.append_assoc, futures, List.map_append,
    List.map_append]
  refine (lastSent_of_split (notMem_futures_spawnsAlong hb _)).trans ?_
  rw [← futures, ← futures, hone, lastSent_of_notMem (notMem_futures_spawnsAlong ha _),
    Option.or_none]

/-! ## What it is to be up to date -/

/-- Up to date with the source values drained, in `ss`, the results drained, in `rs`, and the
futures given out, in `fs`. The clauses on sources and results are equations that hold also when
nothing was drained: then there is no value. -/
structure Current (kind : NodeId → NodeKind) (lasts : NodeId → Prop) (ss rs fs : List (NodeId × V))
    (e : Engine V) : Prop where
  recomputed : e.Recomputed
  called : ∀ v reads, lasts v → (kind v).Outward → lastSent (seen e.effects) v = some reads →
    v ∈ e.active ∧ reads = e.graph.valueStore.reads (e.graph.depsOf v)
  given : ∀ v entry future, lasts v → kind v = .asyncCompute →
    e.graph.entries.get v = some entry → lastSent (seen e.effects) v ≠ none →
      entry.nodeImpl.computeAsync entry.deps e.graph.valueStore = some future →
        lastSent fs v = some future
  sources : ∀ v, lasts v → kind v = .source → e.graph.valueStore.getById v = lastSent ss v
  results : ∀ v, lasts v → kind v = .asyncCompute → e.graph.valueStore.getById v = lastSent rs v

/-- The registered nodes have their kinds, and look at nothing but their dependencies. -/
def Fitting (kind : NodeId → NodeKind) (e : Engine V) : Prop :=
  ∀ id entry, e.graph.entries.get id = some entry → entry.kind = kind id ∧
    entry.nodeImpl.Pure entry.deps ∧ entry.nodeImpl.AsyncReadsDeps entry.deps

variable {kind : NodeId → NodeKind} {lasts lasts' : NodeId → Prop} {ss rs fs : List (NodeId × V)}

theorem Fitting.congr (h : e.Fitting kind) (he : e'.graph.entries = e.graph.entries) :
    e'.Fitting kind := fun id entry hentry => h id entry (he ▸ hentry)

theorem Fitting.sound (h : e.Fitting kind) (hac : Dag.Acyclic (Reads e.graph)) : Sound e.graph :=
  ⟨fun id entry hentry => (h id entry hentry).2.1, hac⟩

theorem Fitting.kind_of (h : e.Fitting kind) {id : NodeId} {k : NodeKind}
    (hk : HasKind e.graph id k) : kind id = k := by
  obtain ⟨entry, hentry, rfl⟩ := hk
  exact (h id entry hentry).1.symm

theorem Current.new : (new : Engine V).Current kind lasts [] [] [] where
  recomputed v _ _ hv := absurd hv (Finset.notMem_empty v)
  called _ _ _ _ h := absurd h (by simp [Engine.new, seen, lastSent])
  given _ _ _ _ _ _ h := absurd rfl h
  sources _ _ _ := ValueStore.getById_new _
  results _ _ _ := ValueStore.getById_new _

/-- Only the registered nodes, the active ones, the store and the calls matter. -/
theorem Current.congr (h : e.Current kind lasts ss rs fs)
    (hentries : e'.graph.entries = e.graph.entries) (hactive : e'.active = e.active)
    (hstore : e'.graph.valueStore = e.graph.valueStore) (heffects : e'.effects = e.effects) :
    e'.Current kind lasts ss rs fs where
  recomputed v entry value hv hentry hk hvalue := by
    rw [hstore] at hvalue ⊢
    exact h.recomputed v entry value (hactive ▸ hv) (hentries ▸ hentry) hk hvalue
  called v reads hl hk hlast := by
    rw [hactive, hstore, depsOf_congr hentries]
    exact h.called v reads hl hk (heffects ▸ hlast)
  given v entry future hl hk hentry hlast hfuture := by
    rw [hstore] at hfuture
    exact h.given v entry future hl hk (hentries ▸ hentry) (heffects ▸ hlast) hfuture
  sources v hl hk := by
    rw [hstore]
    exact h.sources v hl hk
  results v hl hk := by
    rw [hstore]
    exact h.results v hl hk

theorem Current.mono (h : e.Current kind lasts ss rs fs) (hl : ∀ v, lasts' v → lasts v) :
    e.Current kind lasts' ss rs fs :=
  ⟨h.recomputed, fun v reads hv => h.called v reads (hl v hv),
    fun v entry future hv => h.given v entry future (hl v hv), fun v hv => h.sources v (hl v hv),
    fun v hv => h.results v (hl v hv)⟩

/-- What has been called is active. -/
theorem Current.active (h : e.Current kind lasts ss rs fs) {v : NodeId} (hl : lasts v)
    (hk : (kind v).Outward) (hlast : lastSent (seen e.effects) v ≠ none) : v ∈ e.active := by
  obtain ⟨reads, hreads⟩ := Option.ne_none_iff_exists'.mp hlast
  exact (h.called v reads hl hk hreads).1

/-- Nodes that last are as they were, and so is what they read, if they are active; and they hold
what they held, if they compute nothing. What a step has to do for `Current` to survive it, apart
from its first clause. -/
structure Keeps (kind : NodeId → NodeKind) (lasts : NodeId → Prop) (e e' : Engine V) : Prop where
  called : ∀ v, lasts v → (kind v).Outward →
    lastSent (seen e'.effects) v = lastSent (seen e.effects) v
  active : ∀ v, lasts v → v ∈ e.active → v ∈ e'.active
  entries : ∀ v, lasts v → v ∈ e.active → ∃ entry entry', e.graph.entries.get v = some entry ∧
    e'.graph.entries.get v = some entry' ∧ entry'.deps = entry.deps ∧
      entry'.nodeImpl = entry.nodeImpl
  reads : ∀ v, lasts v → v ∈ e.active → ∀ u ∈ e.graph.depsOf v,
    e'.graph.valueStore.getById u = e.graph.valueStore.getById u
  store : ∀ v, lasts v → kind v ≠ .compute →
    e'.graph.valueStore.getById v = e.graph.valueStore.getById v

theorem Current.keep (h : e.Current kind lasts ss rs fs) (hfit : e.Fitting kind)
    (hk : Keeps kind lasts e e') (hrec : e'.Recomputed) : e'.Current kind lasts ss rs fs where
  recomputed := hrec
  called v reads hl hkind hlast := by
    rw [hk.called v hl hkind] at hlast
    obtain ⟨hv, rfl⟩ := h.called v reads hl hkind hlast
    obtain ⟨entry, entry', hentry, hentry', hdeps, -⟩ := hk.entries v hl hv
    have hreads := hk.reads v hl hv
    rw [Graph.depsOf_of_get hentry] at hreads ⊢
    rw [Graph.depsOf_of_get hentry', hdeps]
    exact ⟨hk.active v hl hv, (List.map_congr_left hreads).symm⟩
  given v entry' future hl hkind hentry' hlast hfuture := by
    rw [hk.called v hl (Or.inr hkind)] at hlast
    have hv := h.active hl (Or.inr hkind) hlast
    obtain ⟨entry, _, hentry, heq, hdeps, himpl⟩ := hk.entries v hl hv
    obtain rfl := Option.some.inj (hentry'.symm.trans heq)
    refine h.given v entry future hl hkind hentry hlast ?_
    rw [← hfuture, hdeps, himpl]
    -- the future depends on what the node reads, which is as before
    refine (hfit v entry hentry).2.2 _ _ fun u hu => (hk.reads v hl hv u ?_).symm
    rwa [Graph.depsOf_of_get hentry]
  sources v hl hkind := by
    rw [hk.store v hl (by rw [hkind]; decide)]
    exact h.sources v hl hkind
  results v hl hkind := by
    rw [hk.store v hl (by rw [hkind]; decide)]
    exact h.results v hl hkind

/-! ## Registering and activating -/

theorem Current.registerAll (h : e.Current kind lasts ss rs fs) (hok : e.Ok) (hfit : e.Fitting kind)
    (descs : List (NodeDescriptor V)) : (e.registerAll descs).Current kind lasts ss rs fs := by
  have hstore := (graph_registerAll e descs).1
  refine h.keep hfit ⟨fun _ _ _ => rfl, fun _ _ hv => hv, fun v _ hv => ?_, fun _ _ _ u _ => ?_,
    fun v _ _ => ?_⟩ (h.recomputed.registerAll hok descs)
  · obtain ⟨entry, hentry⟩ := FinMap.exists_get_of_mem_keys (hok.active_subset hv)
    exact ⟨entry, _, hentry, registerAll_of_get hentry descs, rfl, rfl⟩
  · rw [hstore]
  · rw [hstore]

/-- Activation calls sources and compute nodes only. -/
theorem seen_activateSinks (hp : e.pendingRemovals = []) (hfit : e.Fitting kind)
    (ids : List NodeId) {v : NodeId} (hk : (kind v).Outward) :
    lastSent (seen (ids.foldl activateIfSink e).effects) v = lastSent (seen e.effects) v := by
  have hrecord : ∀ (effects : List (Effect V)) (effect : Effect V), effect.nodeId ≠ v →
      lastSent (seen (effects ++ [effect])) v = lastSent (seen effects) v := by
    intro effects effect hne
    rw [seen, List.map_append, lastSent_append, lastSent_of_notMem (by simp [hne.symm]),
      Option.none_or, seen]
  -- A call is to a node of another kind than `v`, so it is another node.
  have hfinish : ∀ (e : Engine V) (id : NodeId) (entry : NodeEntry V),
      e.graph.entries.get id = some entry → entry.kind = kind id →
        lastSent (seen (e.finishActivation id entry.kind).effects) v =
          lastSent (seen e.effects) v := by
    intro e id entry hentry hkind
    have hne : entry.kind = .source ∨ entry.kind = .compute → id ≠ v := by
      rintro hcalled rfl
      rw [hkind] at hcalled
      rcases hk with hk | hk <;> rw [hk] at hcalled <;> simp at hcalled
    cases hentrykind : entry.kind with
    | source =>
      simp only [finishActivation, invokeActivate]
      split
      · exact hrecord _ _ (hne (Or.inl hentrykind))
      · rfl
    | compute =>
      simp only [finishActivation, initialCompute]
      split
      · split
        · split <;> exact hrecord _ _ (hne (Or.inr hentrykind))
        · rfl
      · rfl
    | sink => rfl
    | asyncCompute => rfl
  induction ids generalizing e with
  | nil => rfl
  | cons id ids ih =>
    rw [List.foldl_cons]
    obtain ⟨-, heq⟩ | ⟨-, heq⟩ := activateIfSink_cases hp id
    · have hrest := sameRest_activate e id
      have hseen : lastSent (seen (e.activate id).effects) v = lastSent (seen e.effects) v ∧
          (e.activate id).Fitting kind :=
        (activateNode_induction (P := fun e' => lastSent (seen e'.effects) v =
            lastSent (seen e.effects) v ∧ e'.Fitting kind) (fun _ _ _ h _ _ => h)
          (fun e' i entry h _ hentry => ⟨(hfinish e' i entry hentry (h.2 i entry hentry).1).trans h.1,
            h.2.congr (sameRest_finishActivation e' i entry.kind).entries⟩) _ id ⟨rfl, hfit⟩).1
      rw [heq, ih (hrest.pendingRemovals.trans hp) hseen.2, hseen.1]
    · rw [heq]
      exact ih hp hfit

theorem Current.activateSinks (h : e.Current kind lasts ss rs fs) (hok : e.Ok)
    (hfit : e.Fitting kind) (hac : Dag.Acyclic (Reads e.graph)) (ids : List NodeId) :
    (ids.foldl activateIfSink e).Current kind lasts ss rs fs := by
  obtain ⟨hg, -, -⟩ := grown_activateSinks ids hok.drained
  refine h.keep hfit ⟨fun v _ hk => seen_activateSinks hok.drained hfit ids hk,
    fun v _ hv => hg.mono hv, fun v _ hv => ?_, fun v _ hv u hu => ?_, fun v _ hk => ?_⟩
    (h.recomputed.grown hok (hfit.sound hac) hg)
  · obtain ⟨entry, hentry⟩ := FinMap.exists_get_of_mem_keys (hok.active_subset hv)
    exact ⟨entry, entry, hentry, by rwa [hg.entries], rfl, rfl⟩
  · exact hg.store u (Or.inr (hok.closed v hv u hu))
  · by_cases hnew : v ∈ (ids.foldl activateIfSink e).active ∧ v ∉ e.active
    · obtain ⟨entry, hentry⟩ := FinMap.exists_get_of_mem_keys (hg.registered v hnew.1 hnew.2)
      exact hg.store_new v entry hnew.1 hnew.2 hentry ((hfit v entry hentry).1.trans_ne hk)
    · exact hg.store v (by tauto)

/-! ## Removing -/

/-- **A release that leaves no node without a dependency keeps it**, for the nodes it leaves. The
removed nodes read nobody who stays and nobody who stays reads them. -/
theorem Current.release (h : e.Current kind lasts ss rs fs) (hok : e.Ok) (hfit : e.Fitting kind)
    {nodeIds : List NodeId} (hclosed : Closed (e.release nodeIds).graph)
    (hl : ∀ v, lasts' v → lasts v ∧
      (v ∈ e.graph.entries.keys → v ∈ (e.release nodeIds).graph.entries.keys)) :
    (e.release nodeIds).Current kind lasts' ss rs fs := by
  have hshrinks := shrinks_release e nodeIds
  have hkept : ∀ v, v ∈ e.active → v ∈ (e.release nodeIds).graph.entries.keys →
      ∀ u ∈ e.graph.depsOf v, (e.release nodeIds).graph.valueStore.getById u =
        e.graph.valueStore.getById u := by
    intro v hv hreg u hu
    refine hshrinks.store u fun hr => hr.2 (hclosed v hreg u ?_)
    rwa [depsOf_release hreg]
  refine (h.mono fun v hv => (hl v hv).1).keep hfit ⟨fun v _ _ => by rw [hshrinks.effects],
    fun v hv hva => ?_, fun v hv hva => ?_, fun v hv hva => ?_, fun v hv _ => ?_⟩ ?_
  · exact hok.wired.mem_active_release.mpr ⟨hva, (hl v hv).2 (hok.active_subset hva)⟩
  · obtain ⟨entry', hentry'⟩ := FinMap.exists_get_of_mem_keys ((hl v hv).2 (hok.active_subset hva))
    obtain ⟨entry, hentry, -, hdeps, himpl⟩ := hshrinks.entries v entry' hentry'
    exact ⟨entry, entry', hentry, hentry', hdeps, himpl⟩
  · exact hkept v hva ((hl v hv).2 (hok.active_subset hva))
  · exact hshrinks.store v fun hr => hr.2 ((hl v hv).2 hr.1)
  · -- what is left has its value, and what it reads has its own
    intro v entry' value hv hentry' hk hvalue
    obtain ⟨hva, hreg⟩ := hok.wired.mem_active_release.mp hv
    obtain ⟨entry, hentry, hkind, hdeps, himpl⟩ := hshrinks.entries v entry' hentry'
    rw [hshrinks.store v fun hr => hr.2 hreg]
    refine h.recomputed v entry value hva hentry (hkind ▸ hk) ?_
    rw [← hvalue, hdeps, himpl]
    refine (hfit v entry hentry).2.1.congr _ _ fun u hu => (hkept v hva hreg u ?_).symm
    rwa [Graph.depsOf_of_get hentry]

/-! ## A cycle -/

/-- A dirty node has one place in the cycle, and is executed there with the values that its
dependencies end with. The parts of the proof that are about one node among the others start from
here. -/
theorem Regular.exists_split (h : Regular e) (o : CycleOrder) {v : NodeId} (hv : e.Dirty v) :
    ∃ a b, e.sortedOf o = a ++ v :: b ∧ v ∉ a ∧ v ∉ b ∧ ∀ u ∈ e.graph.depsOf v,
      (e.storeAfter a e.received.graph.valueStore).getById u =
        (runCycleImpl o false e).graph.valueStore.getById u := by
  have hnodup := h.nodup_sortedOf o
  have hordered := h.ordered_sortedOf o
  obtain ⟨a, b, hsorted⟩ := List.append_of_mem (h.mem_sortedOf.mpr hv)
  have hstore := (runCycleImpl_sequential o e).1
  rw [storeAfter, (sameFrame_received e).nodeStore] at hstore
  rw [hsorted] at hnodup hordered hstore
  refine ⟨a, b, hsorted, fun ha => ?_, fun hb => ?_, fun u hu => ?_⟩
  · exact (List.nodup_append.mp hnodup).2.2 v ha v List.mem_cons_self rfl
  · exact (List.nodup_cons.mp (List.nodup_append.mp hnodup).2.1).1 hb
  · rw [hstore]
    exact Dataflow.reads_final (framed_nodeStore e) hnodup hordered _ hu

theorem spawnsOf_sequential (o : CycleOrder) (e : Engine V) :
    e.received.spawnsOf o false e.updated =
      e.spawnsAlong (e.sortedOf o) e.received.graph.valueStore := by
  rw [← (sameFrame_received e).along.2]
  exact (executeSequentialWithAsync_eq e.received _).2

/-- **A cycle takes in what is waiting**, and gives out its futures. Each clause by cases: for a
dirty node what it was shown and gave at its place in the list, for any other that neither it nor
what it reads has changed. -/
theorem Current.runCycleImpl (h : e.Current kind lasts ss rs fs) (hok : e.Ok) (hfit : e.Fitting kind)
    (hac : Dag.Acyclic (Reads e.graph)) (hss : ∀ u ∈ e.graph.sourceRx, kind u.1 = .source)
    (hrs : ∀ u ∈ e.asyncManager.resultRx, kind u.1 = .asyncCompute) (o : CycleOrder) :
    (runCycleImpl o false e).Current kind lasts (ss ++ e.graph.sourceRx)
      (rs ++ e.asyncManager.resultRx) (fs ++ futures (e.received.spawnsOf o false e.updated)) := by
  have hs := hfit.sound hac
  have hreg := hok.regular hac
  have hframe := sameFrame_runCycleImpl o false e
  have heffects : seen (Engine.runCycleImpl o false e).effects =
      seen e.effects ++ seen (e.effectsAlong (e.sortedOf o) e.received.graph.valueStore) := by
    rw [(runCycleImpl_sequential o e).2, (sameFrame_received e).along.1, seen, List.map_append]
    rfl
  have hnot : ∀ v, v ∈ e.updated → kind v ≠ .compute := by
    intro v hv
    rw [updated, List.mem_toFinset, List.mem_append] at hv
    rcases hv with hv | hv <;> obtain ⟨u, hu, rfl⟩ := List.mem_map.mp hv
    · rw [hss u hu]
      decide
    · rw [hrs u hu]
      decide
  -- a clean node has not been called, and reads what it read
  have hclean : ∀ v, ¬ e.Dirty v → lastSent (seen (Engine.runCycleImpl o false e).effects) v =
      lastSent (seen e.effects) v := by
    intro v hv
    rw [heffects, lastSent_append, lastSent_of_notMem
      (notMem_seen_effectsAlong (mt hreg.mem_sortedOf.mp hv) _), Option.none_or]
  refine ⟨fun v entry value hv hentry hk hvalue => ?_, fun v reads hl hk hlast => ?_,
    fun v entry future hl hk hentry hlast hfuture => ?_, fun v hl hk => ?_, fun v hl hk => ?_⟩
  · rw [hframe.active] at hv
    rw [hframe.entries] at hentry
    have hdeps : e.graph.depsOf v = entry.deps := Graph.depsOf_of_get hentry
    have hpure := (hs.pure v entry hentry).congr
    by_cases hdirty : e.Dirty v
    · obtain ⟨store, hval, hreads, -⟩ := hok.getById_of_dirty hs o hdirty
      rw [hpure _ store fun u hu => (hreads u (by rwa [hdeps])).symm] at hvalue
      rw [hval]
      simp only [nodeStore, hentry, hk, if_true, hvalue, ValueStore.getById_setById_self]
    · have hown := getById_received e fun hupd => hnot v hupd ((hfit v entry hentry).1 ▸ hk)
      rw [hok.getById_of_not_dirty hs o hdirty, hown]
      refine h.recomputed v entry value hv hentry hk ?_
      rw [← hvalue]
      exact hpure _ _ fun u hu => (hok.reads_of_not_dirty hs o hv hdirty u (by rwa [hdeps])).symm
  · rw [hframe.active, depsOf_congr hframe.entries]
    by_cases hdirty : e.Dirty v
    · have hv := hreg.active_of_dirty hdirty
      obtain ⟨entry, hentry⟩ := FinMap.exists_get_of_mem_keys (hok.active_subset hv)
      obtain ⟨a, b, hsorted, -, hb, hreads⟩ := hreg.exists_split o hdirty
      rw [heffects, hsorted, lastSent_append, lastSent_seen_effectsAlong hentry
        ((hfit v entry hentry).1 ▸ hk) hb, Option.some_or, Option.some.injEq] at hlast
      rw [Graph.depsOf_of_get hentry] at hreads ⊢
      exact ⟨hv, hlast.symm.trans (List.map_congr_left hreads)⟩
    · rw [hclean v hdirty] at hlast
      obtain ⟨hv, rfl⟩ := h.called v reads hl hk hlast
      exact ⟨hv, (List.map_congr_left (hok.reads_of_not_dirty hs o hv hdirty)).symm⟩
  · rw [hframe.entries] at hentry
    have hdeps : e.graph.depsOf v = entry.deps := Graph.depsOf_of_get hentry
    have hasync := (hfit v entry hentry).2.2
    rw [spawnsOf_sequential, lastSent_append]
    by_cases hdirty : e.Dirty v
    · obtain ⟨a, b, hsorted, ha, hb, hreads⟩ := hreg.exists_split o hdirty
      rw [hsorted, lastSent_futures_spawnsAlong hentry ((hfit v entry hentry).1.trans hk) ha hb,
        hasync _ _ fun u hu => hreads u (by rwa [hdeps]), hfuture, Option.some_or]
    · rw [hclean v hdirty] at hlast
      have hv := h.active hl (Or.inr hk) hlast
      rw [lastSent_of_notMem (notMem_futures_spawnsAlong (mt hreg.mem_sortedOf.mp hdirty) _),
        Option.none_or]
      refine h.given v entry future hl hk hentry hlast ?_
      rw [← hfuture]
      exact hasync _ _ fun u hu => (hok.reads_of_not_dirty hs o hv hdirty u (by rwa [hdeps])).symm
  · have hnrec : ¬ e.Recomputes v := fun hr => by simp [hfit.kind_of hr.2] at hk
    have hnone : v ∉ e.asyncManager.resultRx.map Prod.fst := by
      rintro hmem
      obtain ⟨u, hu, rfl⟩ := List.mem_map.mp hmem
      simp [hrs u hu] at hk
    rw [hreg.getById_runCycleImpl o hnrec, store_received, getById_receive, h.sources v hl hk,
      lastSent_append, lastSent_of_notMem hnone, Option.none_or, lastSent_append]
  · have hnrec : ¬ e.Recomputes v := fun hr => by simp [hfit.kind_of hr.2] at hk
    have hnone : v ∉ e.graph.sourceRx.map Prod.fst := by
      rintro hmem
      obtain ⟨u, hu, rfl⟩ := List.mem_map.mp hmem
      simp [hss u hu] at hk
    rw [hreg.getById_runCycleImpl o hnrec, store_received, getById_receive, h.results v hl hk,
      lastSent_append, lastSent_of_notMem hnone, Option.or_none, lastSent_append]

end Engine

end ReactiveGraph
