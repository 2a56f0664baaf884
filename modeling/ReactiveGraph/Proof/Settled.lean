import ReactiveGraph.Lib.Network
import ReactiveGraph.Proof.Recompute

/-!
# The store as the solution of a network

The registered nodes and which of them are active make a network: active compute nodes compute, and
every other node has what the updates sent to it leave behind. `Settled` says that the store solves
it for the updates drained so far. That is more than `Recomputed`: a node whose `compute` gives
nothing holds nothing, so **the updates and the graph determine the store**, whatever the run that
led to it.

Activation keeps the store settled, since it computes what it brings in. A cycle takes in the
updates it drains; a node that computes nothing keeps what it had, and it is here that `compute`
must not fail on values of the expected types, for then it had nothing.

**What this is for.** Two runs that drain the same updates in other batches, or at other times, are
compared by what they end in: each store solves the same network with the same inputs, and a network
over an acyclic graph has one solution. No step of one run has to be matched with a step of the
other.

**What it takes.** Only sequential cycles, no removals since the start, no results of async nodes,
and updates that are addressed to no compute node and carry values on which the nodes downstream do
not fail (`Network.Total`). Each is needed: a removed value, or a result, is not among the updates,
and a node that fails on what it is given keeps a value that the updates no longer account for.
-/

namespace ReactiveGraph

variable {V : Type*}

namespace Engine

variable {e e' : Engine V} {us us' : List (NodeId × V)}

/-! ## The store as a solution -/

theorem Sound.wf {graph : Graph V} (hs : Sound graph) :
    WellFounded fun u v => u ∈ graph.depsOf v :=
  ⟨hs.acyclic.induction graph.entries.keys (fun _ _ h => mem_keys_of_reads h) fun v ih =>
    .intro v ih⟩

/-- The network of an engine: its active compute nodes compute, and every other node has what it is
given. That a node computes nothing when a dependency is missing makes it strict, and acyclicity of
the registry makes it well-founded. -/
def network (e : Engine V) (hs : Sound e.graph) :
    Network (ValueStore.getById : ValueStore V → NodeId → Option V) where
  computed v := v ∈ e.active ∧ HasKind e.graph v .compute
  pred := e.graph.depsOf
  eval v store := (e.graph.entries.get v).bind fun entry => entry.nodeImpl.compute entry.deps store
  congr v store store' h := by
    cases hv : e.graph.entries.get v with
    | none => rfl
    | some entry =>
      rw [Graph.depsOf_of_get hv] at h
      exact (hs.pure v entry hv).congr store store' h
  strict v store h := by
    cases hv : e.graph.entries.get v with
    | none => rfl
    | some entry =>
      rw [Graph.depsOf_of_get hv] at h
      exact (hs.pure v entry hv).missing store h
  wf := hs.wf

/-- The values that updates, received in order, leave behind. -/
def inputs (us : List (NodeId × V)) : ValueStore V := receive .new us

/-- The store holds for every active compute node what it computes on that store, and for every
other node what the updates have left. The first clause is an equation between what may be missing:
nothing is held where nothing is computed. -/
structure Settled (us : List (NodeId × V)) (e : Engine V) : Prop where
  computed : ∀ v entry, v ∈ e.active → e.graph.entries.get v = some entry → entry.kind = .compute →
    e.graph.valueStore.getById v = entry.nodeImpl.compute entry.deps e.graph.valueStore
  input : ∀ v, (v ∈ e.active → ¬ HasKind e.graph v .compute) →
    e.graph.valueStore.getById v = (inputs us).getById v

theorem settled_iff (hs : Sound e.graph) (hentries : e'.graph.entries = e.graph.entries)
    (hactive : e'.active = e.active) :
    e'.Settled us ↔ (e.network hs).Solves (inputs us).getById e'.graph.valueStore := by
  have hkind : ∀ v, HasKind e'.graph v .compute ↔ HasKind e.graph v .compute := fun v =>
    HasKind.congr hentries v .compute
  constructor
  · refine fun h => ⟨?_, fun v hv => h.input v fun hva hk => hv ⟨hactive ▸ hva, (hkind v).mp hk⟩⟩
    rintro v ⟨hva, entry, hentry, hk⟩
    rw [h.computed v entry (hactive ▸ hva) (hentries ▸ hentry) hk]
    simp only [network, hentry, Option.bind_some]
  · refine fun h => ⟨fun v entry hva hentry hk => ?_, fun v hv =>
      h.given v fun hc => hv (hactive ▸ hc.1) ((hkind v).mpr hc.2)⟩
    rw [hentries] at hentry
    have hval := h.computed v ⟨hactive ▸ hva, entry, hentry, hk⟩
    simpa only [network, hentry, Option.bind_some] using hval

/-- **The updates and the graph determine the store.** By the library, node by node along the
dependencies. The two engines need not have come about in the same way; their lists of updates need
only leave the same behind. -/
theorem Settled.unique (h : e.Settled us) (h' : e'.Settled us') (hs : Sound e.graph)
    (hentries : e'.graph.entries = e.graph.entries) (hactive : e'.active = e.active)
    (hus : inputs us' = inputs us) : e'.graph.valueStore = e.graph.valueStore := by
  have hsolves := (settled_iff hs hentries hactive).mp h'
  rw [hus] at hsolves
  exact ValueStore.ext_getById (hsolves.unique ((settled_iff hs rfl rfl).mp h))

/-! ## What updates leave behind -/

theorem inputs_append (us l : List (NodeId × V)) : inputs (us ++ l) = receive (inputs us) l :=
  List.foldl_append

/-- What is received for a node depends on nothing that was there for another. -/
theorem getById_receive_congr {store store' : ValueStore V} {id : NodeId}
    (h : store.getById id = store'.getById id) (l : List (NodeId × V)) :
    (receive store l).getById id = (receive store' l).getById id := by
  induction l generalizing store store' with
  | nil => exact h
  | cons u l ih =>
    refine ih ?_
    rw [ValueStore.getById_setById, ValueStore.getById_setById, h]

theorem exists_getById_receive {store : ValueStore V} {id : NodeId} {value : V}
    (h : store.getById id = some value) (l : List (NodeId × V)) :
    ∃ value', (receive store l).getById id = some value' := by
  induction l generalizing store value with
  | nil => exact ⟨value, h⟩
  | cons u l ih =>
    by_cases hid : id = u.1
    · have hnew : (store.setById u.1 u.2).getById id = some u.2 := by
        rw [hid, ValueStore.getById_setById_self]
      exact ih hnew
    · exact ih ((ValueStore.getById_setById_of_ne _ _ hid).trans h)

/-- What is found for a node was sent to it. -/
theorem mem_of_getById_inputs {id : NodeId} {value : V}
    (h : (inputs us).getById id = some value) : (id, value) ∈ us := by
  have hmem : ∀ (l : List (NodeId × V)) (store : ValueStore V),
      (receive store l).getById id = some value →
        store.getById id = some value ∨ (id, value) ∈ l := by
    intro l
    induction l with
    | nil => exact fun _ h => Or.inl h
    | cons u l ih =>
      intro store h
      rcases ih _ h with h | h
      · obtain ⟨rfl, rfl⟩ | ⟨-, h⟩ := ValueStore.getById_setById_eq_some.mp h
        · exact Or.inr List.mem_cons_self
        · exact Or.inl h
      · exact Or.inr (List.mem_cons_of_mem _ h)
  exact (hmem us .new h).resolve_left (by simp)

/-! ## What keeps the store settled -/

theorem Settled.registerAll (h : e.Settled us) (hok : e.Ok) (descs : List (NodeDescriptor V)) :
    (e.registerAll descs).Settled us := by
  have hstore := (graph_registerAll e descs).1
  refine ⟨fun v entry hv hentry hk => ?_, fun v hv => ?_⟩
  · obtain ⟨old, hold⟩ := FinMap.exists_get_of_mem_keys (hok.active_subset hv)
    obtain rfl := Option.some.inj ((registerAll_of_get hold descs).symm.trans hentry)
    rw [hstore]
    exact h.computed v old hv hold hk
  · rw [hstore]
    exact h.input v fun hva hk => hv hva (hk.registerAll descs)

/-- **Activation computes what it brings in**, from nothing: no update goes to a compute node, so a
new one had no value, and what `Grown` says of it is the equation. -/
theorem Settled.grown {B : NodeId → Prop} (h : e.Settled us) (hok : e.Ok) (hs : Sound e.graph)
    (hnone : ∀ v, HasKind e.graph v .compute → (inputs us).getById v = none)
    (hg : Grown B e e') : e'.Settled us := by
  refine ⟨fun v entry hv hentry hk => ?_, fun v hv => ?_⟩
  · rw [hg.entries] at hentry
    by_cases hva : v ∈ e.active
    · rw [hg.store v (Or.inr hva), h.computed v entry hva hentry hk]
      refine (hs.pure v entry hentry).congr _ _ fun u hu => (hg.store u (Or.inr ?_)).symm
      exact hok.closed v hva u (by rwa [Graph.depsOf_of_get hentry])
    · have hcomp := hg.computed hs v entry hv hva hentry hk
      rwa [Computed, h.input v fun hva' => absurd hva' hva, hnone v ⟨entry, hentry, hk⟩,
        Option.or_none] at hcomp
  · have hsame : e'.graph.valueStore.getById v = e.graph.valueStore.getById v := by
      by_cases hnew : v ∈ e'.active ∧ v ∉ e.active
      · obtain ⟨entry, hentry⟩ := FinMap.exists_get_of_mem_keys (hg.registered v hnew.1 hnew.2)
        refine hg.store_new v entry hnew.1 hnew.2 hentry fun hk => hv hnew.1 ?_
        exact ⟨entry, by rwa [hg.entries], hk⟩
      · exact hg.store v (by tauto)
    rw [hsame]
    exact h.input v fun hva hk =>
      hv (hg.mono hva) ((HasKind.congr hg.entries v .compute).mpr hk)

/-- **A cycle takes in the updates it drains.** A dirty node has been computed from what its
dependencies end with, and if it gave nothing it was not given its values before either, by
totality; a node that is not dirty reads what it read. -/
theorem Settled.runCycleImpl (h : e.Settled us) (hok : e.Ok) (hs : Sound e.graph)
    {allowed : NodeId → V → Prop} (htotal : (e.network hs).Total allowed)
    (hallowed : ∀ u ∈ us ++ e.graph.sourceRx, allowed u.1 u.2)
    (hkind : ∀ u ∈ e.graph.sourceRx, ¬ HasKind e.graph u.1 .compute)
    (hres : e.asyncManager.resultRx = []) (o : CycleOrder) :
    (runCycleImpl o false e).Settled (us ++ e.graph.sourceRx) := by
  have hframe := sameFrame_runCycleImpl o false e
  have hreceived : e.received.graph.valueStore = receive e.graph.valueStore e.graph.sourceRx := by
    rw [store_received, hres, List.append_nil]
  rw [settled_iff hs hframe.entries hframe.active]
  refine ((settled_iff hs rfl rfl).mp h).update htotal (fun v value hv => ?_)
    (fun v value hv => hallowed _ (mem_of_getById_inputs hv)) ?_ fun v hv => ?_
  · rw [inputs_append]
    exact exists_getById_receive hv _
  · rintro v ⟨hva, entry, hentry, hk⟩
    have hdeps : e.graph.depsOf v = entry.deps := Graph.depsOf_of_get hentry
    have hpure := (hs.pure v entry hentry).congr
    have hown : e.received.graph.valueStore.getById v = e.graph.valueStore.getById v := by
      refine getById_received e fun hupd => ?_
      rw [updated, hres, List.map_nil, List.append_nil, List.mem_toFinset] at hupd
      obtain ⟨u, hu, rfl⟩ := List.mem_map.mp hupd
      exact hkind u hu ⟨entry, hentry, hk⟩
    simp only [network, hentry, Option.bind_some]
    by_cases hdirty : e.Dirty v
    -- A dirty node ran on the final values of its dependencies: `hpure` makes that run the
    -- network's own. Where it failed under a keeping strategy, the old value stands.
    · obtain ⟨store, hval, hreads, hstart⟩ := hok.getById_of_dirty hs o hdirty
      rw [hval, ← hpure store _ fun u hu => hreads u (by rwa [hdeps])]
      cases hc : entry.nodeImpl.compute entry.deps store with
      | some result =>
        exact Or.inl (by
          simp only [nodeStore, hentry, hk, if_true, hc, ValueStore.getById_setById_self])
      | none =>
        by_cases herr : e.strategyOf v = .propagateError
        · exact Or.inl (by
            simp only [nodeStore, hentry, hk, if_true, hc, herr, ValueStore.getById_remove_self])
        · refine Or.inr ⟨rfl, ?_⟩
          simp only [nodeStore, hentry, hk, if_true, hc, herr, if_false]
          exact hstart.trans hown
    -- A clean node did not run, and nothing it reads has changed.
    · left
      rw [hok.getById_of_not_dirty hs o hdirty, hown, h.computed v entry hva hentry hk]
      exact hpure _ _ fun u hu =>
        (hok.reads_of_not_dirty hs o hva hdirty u (by rwa [hdeps])).symm
  · have hreceived_v : e.received.graph.valueStore.getById v =
        (inputs (us ++ e.graph.sourceRx)).getById v := by
      rw [hreceived, inputs_append]
      exact getById_receive_congr (h.input v fun hva hk => hv ⟨hva, hk⟩) _
    rw [← hreceived_v]
    by_cases hdirty : e.Dirty v
    · obtain ⟨store, hval, -, hstart⟩ := hok.getById_of_dirty hs o hdirty
      have hva := (hok.regular hs.acyclic).active_of_dirty hdirty
      obtain ⟨entry, hentry, -⟩ := hok.wired.registered hva
      have hk : entry.kind ≠ .compute := fun hk => hv ⟨hva, entry, hentry, hk⟩
      rw [hval, ← hstart]
      simp only [nodeStore, hentry, hk, if_false]
    · exact hok.getById_of_not_dirty hs o hdirty

end Engine

end ReactiveGraph
