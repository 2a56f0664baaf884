import Mathlib.Data.Finset.SDiff
import ReactiveGraph.Model.Subgraph
import ReactiveGraph.Proof.Topology

/-!
# What activation does

`activateNode` does two things to the engine: it marks a node active and wires it into the topology,
and, once the node's dependencies have been through the same, it finishes the node — a source's
callback runs, a compute node gets its first value. What is true of both is true of an activation
(`activateNode_induction`).

That says nothing about order, and order is the point of the recursion: a node is finished after its
dependencies, so its first value is computed from theirs. `Grown` is the relation between the engine
before and after that carries it. The new nodes are registered and visited on the way up from the
one that was asked for (`Visits`), their registered dependencies are active, nothing but new compute
nodes has another value, and each of those has the value its `compute` gives *in the final store*,
or none to give and the value it had. On an acyclic graph no later step of the recursion undoes
that.

**How `Grown` is proved.** Two rules: growing twice is growing (`Grown.trans`), and finishing a node
after its dependencies have grown is growing (`Grown.finish`). The recursion is put together from
them by induction on the fuel, which has to cover the registered nodes that are not active; each
mark lowers their number. The second rule is where acyclicity is used: the node gets its value last,
and had anything below it read it, there would be a cycle.

**What is assumed.** Only the part about values needs `Sound`, purity of the compute functions and
an acyclic registry; the rest holds of any graph, with cycles and with dependencies that are not
registered. `Wired`, that the topology holds the active nodes with their entries' dependencies, is
what the results about edges ask for, and every run provides it.

Left out are the calls of the callbacks, which `ActivateSink.lean` has, and what callbacks send.
-/

namespace ReactiveGraph

variable {V : Type*}

/-! ## Sending -/

namespace Graph

@[simp] theorem entries_sendSource (graph : Graph V) (id : NodeId) (value : V) :
    (graph.sendSource id value).entries = graph.entries := by
  unfold sendSource
  split <;> rfl

@[simp] theorem valueStore_sendSource (graph : Graph V) (id : NodeId) (value : V) :
    (graph.sendSource id value).valueStore = graph.valueStore := by
  unfold sendSource
  split <;> rfl

/-- Sending the values of one node keeps whatever a single send keeps. A callback sends a list,
under the id of its own source. -/
theorem foldl_sendSource_induction {P : Graph V → Prop} {n : NodeId}
    (step : ∀ graph value, P graph → P (graph.sendSource n value)) (values : List V)
    {g : Graph V} (h : P g) :
    P (values.foldl (fun graph value => graph.sendSource n value) g) := by
  induction values generalizing g with
  | nil => exact h
  | cons value values ih => exact ih (step g value h)

end Graph

namespace Engine

variable {e e' : Engine V}

/-! ## What a single step leaves alone -/

@[simp] theorem entries_invokeActivate (e : Engine V) (id : NodeId) :
    (e.invokeActivate id).graph.entries = e.graph.entries := by
  unfold invokeActivate
  split
  · exact Graph.foldl_sendSource_induction (P := fun g => g.entries = e.graph.entries)
      (fun g value h => by rw [Graph.entries_sendSource, h]) _ rfl
  · rfl

@[simp] theorem valueStore_invokeActivate (e : Engine V) (id : NodeId) :
    (e.invokeActivate id).graph.valueStore = e.graph.valueStore := by
  unfold invokeActivate
  split
  · exact Graph.foldl_sendSource_induction (P := fun g => g.valueStore = e.graph.valueStore)
      (fun g value h => by rw [Graph.valueStore_sendSource, h]) _ rfl
  · rfl

/-- The parts of the engine that activation has nothing to do with. -/
structure SameRest (e e' : Engine V) : Prop where
  entries : e'.graph.entries = e.graph.entries
  asyncManager : e'.asyncManager = e.asyncManager
  errorStrategies : e'.errorStrategies = e.errorStrategies
  pendingRemovals : e'.pendingRemovals = e.pendingRemovals

theorem SameRest.refl (e : Engine V) : SameRest e e := ⟨rfl, rfl, rfl, rfl⟩

theorem SameRest.trans {e₁ e₂ e₃ : Engine V} (h : SameRest e₁ e₂) (h' : SameRest e₂ e₃) :
    SameRest e₁ e₃ :=
  ⟨h'.entries.trans h.entries, h'.asyncManager.trans h.asyncManager,
    h'.errorStrategies.trans h.errorStrategies, h'.pendingRemovals.trans h.pendingRemovals⟩

theorem sameRest_markActive (e : Engine V) (id : NodeId) (deps : List NodeId) :
    SameRest e (e.markActive id deps) := ⟨rfl, rfl, rfl, rfl⟩

theorem sameRest_invokeActivate (e : Engine V) (id : NodeId) : SameRest e (e.invokeActivate id) := by
  refine ⟨entries_invokeActivate e id, ?_, ?_, ?_⟩ <;>
    · unfold invokeActivate
      split <;> rfl

theorem sameRest_initialCompute (e : Engine V) (id : NodeId) :
    SameRest e (e.initialCompute id) := by
  unfold initialCompute
  split
  · split
    · simp only
      split <;> exact ⟨rfl, rfl, rfl, rfl⟩
    · exact .refl e
  · exact .refl e

theorem sameRest_finishActivation (e : Engine V) (id : NodeId) (kind : NodeKind) :
    SameRest e (e.finishActivation id kind) := by
  cases kind with
  | source => exact sameRest_invokeActivate e id
  | compute => exact sameRest_initialCompute e id
  | sink => exact .refl e
  | asyncCompute => exact .refl e

/-- Finishing a node touches neither the topology nor the active set. -/
theorem topology_finishActivation (e : Engine V) (id : NodeId) (kind : NodeKind) :
    (e.finishActivation id kind).topology = e.topology ∧
      (e.finishActivation id kind).active = e.active := by
  cases kind with
  | source =>
    simp only [finishActivation, invokeActivate]
    split <;> exact ⟨rfl, rfl⟩
  | compute =>
    simp only [finishActivation, initialCompute]
    split
    · split
      · split <;> exact ⟨rfl, rfl⟩
      · exact ⟨rfl, rfl⟩
    · exact ⟨rfl, rfl⟩
  | sink => exact ⟨rfl, rfl⟩
  | asyncCompute => exact ⟨rfl, rfl⟩

/-! ## The rule -/

/-- **The rule for activation.** A node is marked when it is not active and finished when it is;
either way it is registered. Whatever both keep, the whole recursion keeps, whatever the fuel; and
besides it only marks, so nothing active before is inactive after. -/
theorem activateNode_induction {P : Engine V → Prop}
    (mark : ∀ e id entry, P e → id ∉ e.active → e.graph.entries.get id = some entry →
      P (e.markActive id entry.deps))
    (finish : ∀ e id entry, P e → id ∈ e.active → e.graph.entries.get id = some entry →
      P (e.finishActivation id entry.kind))
    (n : ℕ) (id : NodeId) {e : Engine V} (h : P e) :
    P (activateNode n id e) ∧ SameRest e (activateNode n id e) ∧
      e.active ⊆ (activateNode n id e).active := by
  induction n generalizing id e with
  | zero => exact ⟨h, .refl e, Finset.Subset.refl _⟩
  | succ n ih =>
    rw [activateNode]
    split
    · exact ⟨h, .refl e, Finset.Subset.refl _⟩
    · next hid =>
      split
      · exact ⟨h, .refl e, Finset.Subset.refl _⟩
      · next entry hentry =>
        -- The outer induction is on the fuel; one dependency after another needs its own.
        have hfold : ∀ (deps : List NodeId) (e₁ : Engine V), P e₁ →
            P (deps.foldl (fun e dep => activateNode n dep e) e₁) ∧
              SameRest e₁ (deps.foldl (fun e dep => activateNode n dep e) e₁) ∧
              e₁.active ⊆ (deps.foldl (fun e dep => activateNode n dep e) e₁).active := by
          intro deps
          induction deps with
          | nil => exact fun e₁ h₁ => ⟨h₁, .refl e₁, Finset.Subset.refl _⟩
          | cons dep deps ihd =>
            intro e₁ h₁
            obtain ⟨h₂, hrest, hact⟩ := ih dep h₁
            obtain ⟨h₃, hrest', hact'⟩ := ihd _ h₂
            exact ⟨h₃, hrest.trans hrest', hact.trans hact'⟩
        obtain ⟨h₂, hrest, hact⟩ :=
          hfold entry.deps _ (mark e id entry h hid hentry)
        have hrest' := (sameRest_markActive e id entry.deps).trans hrest
        have hmem : id ∈ (entry.deps.foldl (fun e dep => activateNode n dep e)
            (e.markActive id entry.deps)).active := hact (Finset.mem_insert_self _ _)
        refine ⟨finish _ id entry h₂ hmem (by rw [hrest'.entries, hentry]),
          hrest'.trans (sameRest_finishActivation _ id entry.kind), ?_⟩
        rw [(topology_finishActivation _ id entry.kind).2]
        exact (Finset.subset_insert id e.active).trans hact

theorem sameRest_activate (e : Engine V) (id : NodeId) : SameRest e (e.activate id) :=
  (activateNode_induction (P := fun _ => True) (fun _ _ _ _ _ _ => trivial)
    (fun _ _ _ _ _ _ => trivial) _ id trivial).2.1

/-! ## The wiring -/

/-- The topology holds the active nodes, each with the dependencies of its entry. Every run keeps it
so (`World.wired_run`), and a cycle that is to run in dependency order needs it. -/
structure Wired (e : Engine V) : Prop where
  keys : e.topology.deps.keys = e.active
  deps : ∀ id deps, e.topology.deps.get id = some deps →
    ∃ entry, e.graph.entries.get id = some entry ∧ entry.deps = deps

/-- Every edge is listed alike both ways. True until a node is removed under a dependent. -/
def Exact (t : Topology) : Prop := ∀ u v, (t.dependentsOf u).count v = (t.depsOf v).count u

theorem Exact.atMost {t : Topology} (h : Exact t) : t.AtMost := fun u v => (h u v).le

theorem Exact.addNode {t : Topology} (h : Exact t) {id : NodeId} (hid : id ∉ t.deps.keys)
    (deps : List NodeId) : Exact (t.addNode id deps) := by
  intro u v
  have huv := h u v
  rw [Topology.count_dependentsOf_addNode, Topology.depsOf_addNode]
  by_cases hv : v = id
  · subst hv
    rw [Topology.depsOf_of_notMem hid, List.count_nil] at huv
    rw [if_pos rfl, if_pos rfl]
    omega
  · rw [if_neg hv, if_neg hv]
    omega

theorem Wired.registered (h : Wired e) {id : NodeId} (hid : id ∈ e.active) :
    ∃ entry, e.graph.entries.get id = some entry ∧ e.topology.depsOf id = entry.deps := by
  rw [← h.keys] at hid
  obtain ⟨deps, hdeps⟩ := FinMap.exists_get_of_mem_keys hid
  obtain ⟨entry, hentry, rfl⟩ := h.deps id deps hdeps
  exact ⟨entry, hentry, Topology.depsOf_of_get hdeps⟩

/-- The topology and the registry name the same dependencies of an active node. -/
theorem Wired.depsOf (h : Wired e) {id : NodeId} (hid : id ∈ e.active) :
    e.topology.depsOf id = e.graph.depsOf id := by
  obtain ⟨entry, hentry, hdeps⟩ := h.registered hid
  rw [hdeps, Graph.depsOf_of_get hentry]

theorem Wired.depsOf_of_notMem (h : Wired e) {id : NodeId} (hid : id ∉ e.active) :
    e.topology.depsOf id = [] := Topology.depsOf_of_notMem (by rwa [h.keys])

theorem Wired.markActive (h : Wired e) {id : NodeId} {entry : NodeEntry V}
    (hentry : e.graph.entries.get id = some entry) : Wired (e.markActive id entry.deps) where
  keys := by
    have : (e.markActive id entry.deps).topology = e.topology.addNode id entry.deps := rfl
    rw [this, Topology.keys_deps_addNode, h.keys]
    rfl
  deps id' deps hdeps := by
    have hget : (e.topology.deps.insert id entry.deps).get id' = some deps := hdeps
    obtain ⟨rfl, rfl⟩ | ⟨-, hget⟩ := FinMap.get_insert_eq_some.mp hget
    · exact ⟨entry, hentry, rfl⟩
    · exact h.deps id' deps hget

theorem Wired.congr (h : Wired e) (ht : e'.topology = e.topology) (ha : e'.active = e.active)
    (hr : e'.graph.entries = e.graph.entries) : Wired e' :=
  ⟨by rw [ht, ha, h.keys], fun id deps hd => by rw [hr]; exact h.deps id deps (ht ▸ hd)⟩

theorem Wired.finishActivation (h : Wired e) (id : NodeId) (kind : NodeKind) :
    Wired (e.finishActivation id kind) := by
  obtain ⟨ht, ha⟩ := topology_finishActivation e id kind
  exact h.congr ht ha (sameRest_finishActivation e id kind).entries

/-- What is active is registered. -/
theorem Wired.active_subset (h : Wired e) : e.active ⊆ e.graph.entries.keys := fun v hv => by
  obtain ⟨entry, hentry, -⟩ := h.registered hv
  exact FinMap.mem_keys_of_get hentry

/-- Activation keeps the wiring. -/
theorem Wired.activate (h : Wired e) (id : NodeId) : Wired (e.activate id) :=
  (activateNode_induction (P := Wired) (fun _ _ _ hw _ hentry => hw.markActive hentry)
    (fun _ id entry hw _ _ => hw.finishActivation id entry.kind) _ id h).1

/-- What is listed alike both ways stays so. -/
theorem exact_activate (h : Wired e) (hex : Exact e.topology) (id : NodeId) :
    Exact (e.activate id).topology := by
  refine (activateNode_induction (P := fun e => Wired e ∧ Exact e.topology) ?_ ?_ _ id
    ⟨h, hex⟩).1.2
  · rintro e id entry ⟨hw, hx⟩ hid hentry
    exact ⟨hw.markActive hentry, hx.addNode (by rwa [hw.keys]) _⟩
  · rintro e id entry ⟨hw, hx⟩ - -
    exact ⟨hw.finishActivation id entry.kind, by
      rwa [(topology_finishActivation e id entry.kind).1]⟩

/-! ## Kinds -/

/-- The node is registered, and is of the given kind. -/
def HasKind (graph : Graph V) (id : NodeId) (kind : NodeKind) : Prop :=
  ∃ entry, graph.entries.get id = some entry ∧ entry.kind = kind

instance (graph : Graph V) (id : NodeId) (kind : NodeKind) : Decidable (HasKind graph id kind) :=
  decidable_of_iff ((graph.entries.get id).map NodeEntry.kind = some kind)
    Option.map_eq_some_iff

theorem HasKind.congr {graph graph' : Graph V} (h : graph'.entries = graph.entries) (id : NodeId)
    (kind : NodeKind) : HasKind graph' id kind ↔ HasKind graph id kind := by
  unfold HasKind
  rw [h]

theorem HasKind.unique {graph : Graph V} {id : NodeId} {kind kind' : NodeKind}
    (h : HasKind graph id kind) (h' : HasKind graph id kind') : kind = kind' := by
  obtain ⟨entry, hentry, rfl⟩ := h
  obtain ⟨entry', hentry', rfl⟩ := h'
  rw [Option.some.inj (hentry.symm.trans hentry')]

/-! ## Growth -/

open Relation

/-- The dependency relation of the registered nodes. -/
def Reads (graph : Graph V) (u v : NodeId) : Prop := u ∈ graph.depsOf v

/-- `u` is `v` or one of the nodes `v` depends on, directly or not. -/
def Upstream (graph : Graph V) (u v : NodeId) : Prop := ReflTransGen (Reads graph) u v

theorem depsOf_congr {graph graph' : Graph V} (h : graph'.entries = graph.entries) :
    graph'.depsOf = graph.depsOf := by
  funext v
  rw [Graph.depsOf, Graph.depsOf, h]

theorem reads_congr {graph graph' : Graph V} (h : graph'.entries = graph.entries) :
    Reads graph' = Reads graph := by
  unfold Reads
  rw [depsOf_congr h]

theorem mem_keys_of_reads {graph : Graph V} {u v : NodeId} (h : Reads graph u v) :
    v ∈ graph.entries.keys := by
  by_contra hv
  rw [Reads, Graph.depsOf, FinMap.notMem_keys.mp hv] at h
  exact List.not_mem_nil h

/-- An activation of `k` comes to `v`: it goes from a node to its dependencies, and not beyond a
node that is active. The node it ends in may be active or unregistered; it is the nodes on the way
that may not. -/
def Visits (e : Engine V) (k v : NodeId) : Prop :=
  ReflTransGen (fun u w => w ∉ e.active ∧ Reads e.graph u w) v k

theorem Visits.upstream {k v : NodeId} (h : e.Visits k v) : Upstream e.graph v k :=
  ReflTransGen.mono (fun _ _ hu => hu.2) _ _ h

/-- The more is active the fewer nodes are visited. -/
theorem Visits.anti {k v : NodeId} (h : e'.Visits k v) (hr : e'.graph.entries = e.graph.entries)
    (ha : e.active ⊆ e'.active) : e.Visits k v := by
  refine ReflTransGen.mono (fun u w hu => ⟨fun hw => hu.1 (ha hw), ?_⟩) _ _ h
  rw [← reads_congr hr]
  exact hu.2

/-- What is assumed where values matter: for every registered node `compute` looks at nothing but
the dependencies and gives nothing when one of them is missing; and nothing depends on itself. Nodes
made by a builder satisfy the first (`pure_closureComputeNode`). -/
structure Sound (graph : Graph V) : Prop where
  pure : ∀ id entry, graph.entries.get id = some entry → entry.nodeImpl.Pure entry.deps
  acyclic : Dag.Acyclic (Reads graph)

theorem Sound.congr {graph graph' : Graph V} (h : Sound graph)
    (he : graph'.entries = graph.entries) : Sound graph' :=
  ⟨fun id entry hg => h.pure id entry (he ▸ hg), by rw [reads_congr he]; exact h.acyclic⟩

/-- The value a compute node has, if it has been computed from the store as it is, and the value it
is left with when there is nothing to compute. The store is that of the engine itself, so the
equation says that the value is up to date, and not only that it was once computed. -/
def Computed (e : Engine V) (v : NodeId) (entry : NodeEntry V) (old : Option V) : Prop :=
  e.graph.valueStore.getById v =
    (entry.nodeImpl.compute entry.deps e.graph.valueStore).or old

/-- `e'` is `e` after an activation that has taken in nodes satisfying `B` only. The clauses are
about the new nodes, those active in `e'` and not in `e`; of all others it says that they have the
value they had. -/
structure Grown (B : NodeId → Prop) (e e' : Engine V) : Prop where
  entries : e'.graph.entries = e.graph.entries
  mono : e.active ⊆ e'.active
  bound : ∀ v ∈ e'.active, v ∉ e.active → B v
  registered : ∀ v ∈ e'.active, v ∉ e.active → v ∈ e.graph.entries.keys
  closed : ∀ v ∈ e'.active, v ∉ e.active → ∀ u ∈ e.graph.depsOf v,
    u ∈ e.graph.entries.keys → u ∈ e'.active
  store : ∀ v, v ∉ e'.active ∨ v ∈ e.active →
    e'.graph.valueStore.getById v = e.graph.valueStore.getById v
  store_new : ∀ v entry, v ∈ e'.active → v ∉ e.active → e.graph.entries.get v = some entry →
    entry.kind ≠ .compute → e'.graph.valueStore.getById v = e.graph.valueStore.getById v
  computed : Sound e.graph → ∀ v entry, v ∈ e'.active → v ∉ e.active →
    e.graph.entries.get v = some entry → entry.kind = .compute →
      e'.Computed v entry (e.graph.valueStore.getById v)

theorem Grown.refl (B : NodeId → Prop) (e : Engine V) : Grown B e e :=
  ⟨rfl, Finset.Subset.refl _, fun _ h hn => absurd h hn, fun _ h hn => absurd h hn,
    fun _ h hn => absurd h hn, fun _ _ => rfl, fun _ _ _ _ _ _ => rfl,
    fun _ _ _ h hn => absurd h hn⟩

theorem Grown.weaken {B B' : NodeId → Prop} (h : Grown B e e') (hB : ∀ v, B v → B' v) :
    Grown B' e e' := { h with bound := fun v hv hn => hB v (h.bound v hv hn) }

/-- What is visited from an active node is active, if it is registered. -/
theorem Grown.mem_of_visits {B : NodeId → Prop} (h : Grown B e e') {k v : NodeId}
    (hk : k ∈ e'.active) (hv : e.Visits k v) (hreg : v ∈ e.graph.entries.keys) :
    v ∈ e'.active := by
  induction hv using ReflTransGen.head_induction_on with
  | refl => exact hk
  | head huw _ ih => exact h.closed _ (ih (mem_keys_of_reads huw.2)) huw.1 _ huw.2 hreg

/-- A later activation disturbs nothing that an earlier one has computed: it gives values to nodes
that were not active then, and the dependencies of those that were are not among them. This is where
it is used that the dependencies of a new node are active, or not registered. -/
theorem Grown.trans {B : NodeId → Prop} {e₁ e₂ e₃ : Engine V} (h : Grown B e₁ e₂)
    (h' : Grown B e₂ e₃) : Grown B e₁ e₃ := by
  have hdeps : e₂.graph.depsOf = e₁.graph.depsOf := depsOf_congr h.entries
  -- a dependency of a node of the first activation has its value already
  have hold : ∀ v ∈ e₂.active, v ∉ e₁.active → ∀ u ∈ e₁.graph.depsOf v,
      e₃.graph.valueStore.getById u = e₂.graph.valueStore.getById u := by
    intro v hv hn u hu
    by_cases hu₂ : u ∈ e₂.active
    · exact h'.store u (Or.inr hu₂)
    · refine h'.store u (Or.inl fun hu₃ => hu₂ (h.closed v hv hn u hu ?_))
      rw [← h.entries]
      exact h'.registered u hu₃ hu₂
  refine ⟨h'.entries.trans h.entries, h.mono.trans h'.mono, fun v hv hn => ?_,
    fun v hv hn => ?_, fun v hv hn u hu hreg => ?_, fun v hv => ?_,
    fun v entry hv hn hentry hkind => ?_, fun hs v entry hv hn hentry hkind => ?_⟩
  all_goals by_cases hv₂ : v ∈ e₂.active
  · exact h.bound v hv₂ hn
  · exact h'.bound v hv hv₂
  · exact h.registered v hv₂ hn
  · rw [← h.entries]; exact h'.registered v hv hv₂
  · exact h'.mono (h.closed v hv₂ hn u hu hreg)
  · exact h'.closed v hv hv₂ u (by rwa [hdeps]) (by rwa [h.entries])
  · rw [h'.store v (Or.inr hv₂), h.store v (hv.imp (fun hv => absurd (h'.mono hv₂) hv) id)]
  · rw [h'.store v (Or.inl ?_), h.store v (Or.inl hv₂)]
    rcases hv with hv | hv
    · exact hv
    · exact absurd (h.mono hv) hv₂
  · rw [h'.store v (Or.inr hv₂), h.store_new v entry hv₂ hn hentry hkind]
  · rw [h'.store_new v entry hv hv₂ (by rwa [h.entries]) hkind, h.store v (Or.inl hv₂)]
  · have hcomp := h.computed hs v entry hv₂ hn hentry hkind
    rw [Computed] at hcomp ⊢
    rw [h'.store v (Or.inr hv₂), hcomp, (hs.pure v entry hentry).congr
      e₃.graph.valueStore e₂.graph.valueStore fun u hu => hold v hv₂ hn u ?_]
    rwa [Graph.depsOf_of_get hentry]
  · have hcomp := h'.computed (hs.congr h.entries) v entry hv hv₂ (by rwa [h.entries]) hkind
    rwa [h.store v (Or.inl hv₂)] at hcomp

/-! ## Finishing a node -/

theorem store_finishActivation_of_ne (e : Engine V) {id : NodeId} (kind : NodeKind) {v : NodeId}
    (hv : v ≠ id) : (e.finishActivation id kind).graph.valueStore.getById v =
      e.graph.valueStore.getById v := by
  cases kind with
  | source => rw [finishActivation, valueStore_invokeActivate]
  | compute =>
    simp only [finishActivation, initialCompute]
    split
    · split
      · split
        · exact ValueStore.getById_setById_of_ne _ _ hv
        · rfl
      · rfl
    · rfl
  | sink => rfl
  | asyncCompute => rfl

theorem store_finishActivation_of_ne_compute (e : Engine V) (id : NodeId) {kind : NodeKind}
    (hk : kind ≠ .compute) (v : NodeId) :
    (e.finishActivation id kind).graph.valueStore.getById v = e.graph.valueStore.getById v := by
  cases kind with
  | source => rw [finishActivation, valueStore_invokeActivate]
  | compute => exact absurd rfl hk
  | sink => rfl
  | asyncCompute => rfl

/-- A finished compute node has been computed: when a dependency is missing `compute` is not called,
but then it would have given nothing. So the check of the source before the call makes no difference
to a pure node. -/
theorem computed_finishActivation {id : NodeId} {entry : NodeEntry V}
    (hentry : e.graph.entries.get id = some entry) (hpure : entry.nodeImpl.Pure entry.deps)
    (hid : id ∉ entry.deps) :
    (e.finishActivation id .compute).Computed id entry (e.graph.valueStore.getById id) := by
  rw [Computed]
  by_cases hall : entry.deps.all e.graph.valueStore.contains
  · cases hr : entry.nodeImpl.compute entry.deps e.graph.valueStore with
    | none =>
      have hstore : (e.finishActivation id .compute).graph.valueStore = e.graph.valueStore := by
        simp only [finishActivation, initialCompute, hentry, hall, if_true, hr]
        rfl
      rw [hstore, hr, Option.none_or]
    | some result =>
      have hstore : (e.finishActivation id .compute).graph.valueStore =
          e.graph.valueStore.setById id result := by
        simp only [finishActivation, initialCompute, hentry, hall, if_true, hr]
        rfl
      have hsame : entry.nodeImpl.compute entry.deps (e.graph.valueStore.setById id result) =
          entry.nodeImpl.compute entry.deps e.graph.valueStore :=
        hpure.congr _ _ fun d hd =>
          ValueStore.getById_setById_of_ne _ _ fun heq => hid (heq ▸ hd)
      rw [hstore, hsame, hr, ValueStore.getById_setById_self, Option.some_or]
  · have hstore : (e.finishActivation id .compute).graph.valueStore = e.graph.valueStore := by
      simp only [finishActivation, initialCompute, hentry, hall]
      rfl
    have hmissing : ∃ d ∈ entry.deps, e.graph.valueStore.getById d = none := by
      simpa [ValueStore.contains, ValueStore.getById] using hall
    rw [hstore, hpure.missing _ hmissing, Option.none_or]

/-- **Finishing a node after its dependencies completes its activation.** The node gets its value
last, and nothing activated below it reads it, or there would be a cycle. -/
theorem Grown.finish {id : NodeId} {entry : NodeEntry V} {e₂ : Engine V} (hida : id ∉ e.active)
    (hentry : e.graph.entries.get id = some entry)
    (h : Grown (fun u => ∃ d ∈ entry.deps, (e.markActive id entry.deps).Visits d u)
      (e.markActive id entry.deps) e₂)
    (hdeps : ∀ d ∈ entry.deps, d ∈ e.graph.entries.keys → d ∈ e₂.active) :
    Grown (e.Visits id) e (e₂.finishActivation id entry.kind) := by
  have hents : e₂.graph.entries = e.graph.entries := h.entries
  have hentry₂ : e₂.graph.entries.get id = some entry := by rw [hents, hentry]
  have hdepsOf : e.graph.depsOf id = entry.deps := Graph.depsOf_of_get hentry
  have hrest := sameRest_finishActivation e₂ id entry.kind
  have hact := (topology_finishActivation e₂ id entry.kind).2
  have hmark : ∀ v, v ∈ (e.markActive id entry.deps).active ↔ v = id ∨ v ∈ e.active :=
    fun v => Finset.mem_insert
  have hnot : ∀ v, v ≠ id → v ∉ e.active → v ∉ (e.markActive id entry.deps).active :=
    fun v hv hn hm => ((hmark v).mp hm).elim hv hn
  -- no node visited from a dependency reads the node
  have hup : Dag.Acyclic (Reads e.graph) →
      ∀ v, (∃ d ∈ entry.deps, (e.markActive id entry.deps).Visits d v) → id ∉ e.graph.depsOf v := by
    rintro hac v ⟨d, hd, hv⟩ hid
    have hdid : TransGen (Reads e.graph) d id := .single (by rwa [Reads, hdepsOf])
    exact hac id (.head hid (TransGen.trans_right hv.upstream hdid))
  have hself : id ∈ e₂.active := h.mono (Finset.mem_insert_self _ _)
  have hstore : e₂.graph.valueStore.getById id = e.graph.valueStore.getById id :=
    h.store id (Or.inr (Finset.mem_insert_self _ _))
  refine ⟨hrest.entries.trans hents, ?_, fun v hv hn => ?_, fun v hv hn => ?_,
    fun v hv hn u hu hreg => ?_, fun v hv => ?_, fun v ent hv hn hent hkind => ?_,
    fun hs v ent hv hn hent hkind => ?_⟩
  · rw [hact]
    exact (Finset.subset_insert id e.active).trans h.mono
  all_goals rw [hact] at hv
  all_goals by_cases hvid : v = id
  · rw [hvid]; exact .refl
  · obtain ⟨d, hd, hvd⟩ := h.bound v hv (hnot v hvid hn)
    have hvisit : e.Visits d v := hvd.anti rfl (Finset.subset_insert id e.active)
    exact hvisit.tail ⟨hida, by rwa [Reads, hdepsOf]⟩
  · rw [hvid]; exact FinMap.mem_keys_of_get hentry
  · exact h.registered v hv (hnot v hvid hn)
  · rw [hact]
    rw [hvid, hdepsOf] at hu
    exact hdeps u hu hreg
  · rw [hact]; exact h.closed v hv (hnot v hvid hn) u hu hreg
  · -- an inactive node is not the finished one, and an active one was not to be activated
    subst hvid
    exact (hv.elim (absurd hself) hida).elim
  · rw [store_finishActivation_of_ne _ _ hvid]
    exact h.store v (hv.imp_right fun hv => (hmark v).mpr (Or.inr hv))
  · rw [hvid, hentry, Option.some.injEq] at hent
    subst hent
    rw [store_finishActivation_of_ne_compute _ _ hkind, hvid, hstore]
  · rw [store_finishActivation_of_ne _ _ hvid]
    exact h.store_new v ent hv (hnot v hvid hn) hent hkind
  · rw [hvid, hentry, Option.some.injEq] at hent
    subst hent
    have hid : id ∉ entry.deps := fun hmem => hs.acyclic.irrefl id (by rwa [Reads, hdepsOf])
    have hcomp := computed_finishActivation hentry₂ (hs.pure id entry hentry) hid
    rw [hstore] at hcomp
    rwa [hvid, hkind]
  · have hcomp := h.computed hs v ent hv (hnot v hvid hn) hent hkind
    rw [Computed] at hcomp ⊢
    rw [store_finishActivation_of_ne _ _ hvid, hcomp]
    congr 1
    refine (hs.pure v ent hent).congr _ _ fun u hu => (store_finishActivation_of_ne _ _ ?_).symm
    rintro rfl
    refine hup hs.acyclic v (h.bound v hv (hnot v hvid hn)) ?_
    rwa [Graph.depsOf_of_get hent]

/-- How many registered nodes are not active. -/
def inactive (e : Engine V) : ℕ := (e.graph.entries.keys \ e.active).card

theorem inactive_le (e : Engine V) : e.inactive ≤ e.graph.entries.keys.card :=
  Finset.card_le_card Finset.sdiff_subset

theorem Grown.inactive_le {B : NodeId → Prop} (h : Grown B e e') : e'.inactive ≤ e.inactive := by
  unfold inactive
  rw [h.entries]
  exact Finset.card_le_card (Finset.sdiff_subset_sdiff (Finset.Subset.refl _) h.mono)

theorem inactive_markActive_lt {id : NodeId} (hid : id ∉ e.active)
    (hreg : id ∈ e.graph.entries.keys) (deps : List NodeId) :
    (e.markActive id deps).inactive < e.inactive := by
  refine Finset.card_lt_card ⟨Finset.sdiff_subset_sdiff (Finset.Subset.refl _)
    (Finset.subset_insert id e.active), fun hsub => ?_⟩
  have := hsub (Finset.mem_sdiff.mpr ⟨hreg, hid⟩)
  exact (Finset.mem_sdiff.mp this).2 (Finset.mem_insert_self _ _)

/-- **Activation takes in what it visits**, with fuel for every registered node that is not active;
and a registered node that is asked for is active afterwards. By induction on the fuel, and for each
node over its dependencies. -/
theorem grown_activateNode (n : ℕ) {id : NodeId} (hn : e.inactive ≤ n) :
    Grown (e.Visits id) e (activateNode n id e) ∧
      (id ∈ e.graph.entries.keys → id ∈ (activateNode n id e).active) := by
  induction n generalizing id e with
  | zero =>
    refine ⟨.refl _ e, fun hreg => ?_⟩
    by_contra hid
    have hpos : 0 < e.inactive := Finset.card_pos.mpr ⟨id, Finset.mem_sdiff.mpr ⟨hreg, hid⟩⟩
    omega
  | succ n ih =>
    rw [activateNode]
    split
    · next hid => exact ⟨.refl _ e, fun _ => hid⟩
    · next hid =>
      split
      · next hnone => exact ⟨.refl _ e, fun hreg => absurd hreg (FinMap.notMem_keys.mpr hnone)⟩
      · next entry hentry =>
        have hreg : id ∈ e.graph.entries.keys := FinMap.mem_keys_of_get hentry
        -- the loop over the dependencies, from any state with the same registry
        have hfold : ∀ (deps : List NodeId) (e₁ : Engine V),
            e₁.graph.entries = e.graph.entries → e₁.inactive ≤ n →
            Grown (fun u => ∃ d ∈ deps, e₁.Visits d u) e₁
                (deps.foldl (fun e dep => activateNode n dep e) e₁) ∧
              ∀ d ∈ deps, d ∈ e.graph.entries.keys →
                d ∈ (deps.foldl (fun e dep => activateNode n dep e) e₁).active := by
          intro deps
          induction deps with
          | nil => exact fun e₁ _ _ => ⟨.refl _ e₁, by simp⟩
          | cons dep deps ihd =>
            intro e₁ he₁ hn₁
            obtain ⟨hg, hin⟩ := @ih e₁ dep hn₁
            obtain ⟨hg', hin'⟩ := ihd _ (hg.entries.trans he₁) (hg.inactive_le.trans hn₁)
            refine ⟨(hg.weaken fun u hu => ⟨dep, List.mem_cons_self, hu⟩).trans
              (hg'.weaken fun u ⟨d, hd, hu⟩ =>
                ⟨d, List.mem_cons_of_mem _ hd, hu.anti hg.entries hg.mono⟩), fun d hd hdreg => ?_⟩
            rcases List.mem_cons.mp hd with rfl | hd
            · exact hg'.mono (hin (by rwa [he₁]))
            · exact hin' d hd hdreg
        have hlt := inactive_markActive_lt hid hreg entry.deps
        obtain ⟨hg, hin⟩ := hfold entry.deps (e.markActive id entry.deps) rfl (by omega)
        refine ⟨Grown.finish hid hentry hg hin, fun _ => ?_⟩
        rw [(topology_finishActivation _ id entry.kind).2]
        exact hg.mono (Finset.mem_insert_self _ _)

theorem grown_activate (e : Engine V) (id : NodeId) :
    Grown (e.Visits id) e (e.activate id) ∧
      (id ∈ e.graph.entries.keys → id ∈ (e.activate id).active) :=
  grown_activateNode _ e.inactive_le

end Engine

end ReactiveGraph
