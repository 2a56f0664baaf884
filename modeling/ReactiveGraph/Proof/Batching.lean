import ReactiveGraph.Model.Builder
import ReactiveGraph.Proof.Settled
import ReactiveGraph.Proof.Wakeup

/-!
# Batching is invisible

The event loop takes however many commands it finds, processes them, and runs one cycle for all of
them. Where the batches end decides which values a cycle sees, and whether a merge finds an update
that precedes it in the store already or is still to have it drained. None of that shows in the
values the loop ends with.

The reason is that these values solve a network. What is merged makes the network, and what is sent
to the sources gives it its values; both are read off the sequence of commands, not off the batches
(`Reached`). An update to one source may therefore also change places with an update to another.

**No two runs are compared step by step.** `Reached cs us e` says that an engine has processed the
commands `cs` and drained the updates `us` of them, and is settled with these. Each command and each
cycle takes one such state to the next, so the loop ends, however the sequence is cut, in a state
that has processed all commands and has nothing waiting. Two of these have the same registry, the
same active nodes and the same inputs, and so the same store.

**What is asked of the commands** (`Admissible`): updates go to sources and have the types that the
readers expect, merges bring subgraphs that contain their dependencies, whose functions are pure and
do not fail on values of the expected types, and whose activation callbacks send nothing; nothing
depends on itself. Removals, and async nodes' completions, are not among the commands compared: for
these it does matter what a cycle has seen.

Emissions are not compared. With larger batches there are fewer cycles, and a sink emits less often.
-/

namespace ReactiveGraph

variable {V : Type*}

namespace Engine

variable {e e' : Engine V}

/-! ## Registering more and activating more -/

theorem registerAll_append (e : Engine V) (ds ds' : List (NodeDescriptor V)) :
    e.registerAll (ds ++ ds') = (e.registerAll ds).registerAll ds' := by
  simp only [Engine.registerAll, List.foldl_append]

theorem entries_registerAll_congr (h : e'.graph.entries = e.graph.entries)
    (ds : List (NodeDescriptor V)) :
    (e'.registerAll ds).graph.entries = (e.registerAll ds).graph.entries :=
  FinMap.ext fun id => by rw [get_registerAll, get_registerAll, h]

/-- What is registered reads what it read. -/
theorem reads_registerAll {u v : NodeId} (h : Reads e.graph u v) (ds : List (NodeDescriptor V)) :
    Reads (e.registerAll ds).graph u v := by
  rwa [Reads, depsOf_registerAll (mem_keys_of_reads h)]

/-- Every dependency of a registered node is registered. Kept by merging subgraphs that contain
theirs. -/
def Closed (graph : Graph V) : Prop :=
  ∀ v ∈ graph.entries.keys, ∀ u ∈ graph.depsOf v, u ∈ graph.entries.keys

/-- In a closed registry nothing that is registered later comes upstream of what was there: an edge
that is added ends in a node that is added. -/
theorem upstream_registerAll (hc : Closed e.graph) {v k : NodeId}
    (hk : k ∈ e.graph.entries.keys) (ds : List (NodeDescriptor V)) :
    Upstream (e.registerAll ds).graph v k ↔ Upstream e.graph v k := by
  constructor
  · intro h
    have hboth : Upstream e.graph v k ∧ v ∈ e.graph.entries.keys := by
      induction h using Relation.ReflTransGen.head_induction_on with
      | refl => exact ⟨.refl, hk⟩
      | head huw _ ih =>
        rw [Reads, depsOf_registerAll ih.2] at huw
        exact ⟨ih.1.head huw, hc _ ih.2 _ huw⟩
    exact hboth.1
  · exact Relation.ReflTransGen.mono (fun u w huw => reads_registerAll huw ds) v k

theorem hasKind_registerAll_iff {k : NodeId} (hk : k ∈ e.graph.entries.keys)
    (ds : List (NodeDescriptor V)) (kind : NodeKind) :
    HasKind (e.registerAll ds).graph k kind ↔ HasKind e.graph k kind := by
  refine ⟨fun h => ?_, fun h => h.registerAll ds⟩
  obtain ⟨entry, hentry⟩ := FinMap.exists_get_of_mem_keys hk
  have hkind : HasKind e.graph k entry.kind := ⟨entry, hentry, rfl⟩
  rwa [h.unique (hkind.registerAll ds)]

/-- In an engine in order, **activating sinks makes exactly what is upstream of them active.** -/
theorem Ok.mem_active_activateSinks (h : e.Ok) {ids : List NodeId}
    (hsup : ∀ s ∈ ids, HasKind e.graph s .sink → Supplied e.graph s) {v : NodeId} :
    v ∈ (ids.foldl activateIfSink e).active ↔
      v ∈ e.active ∨ ∃ k ∈ ids, HasKind e.graph k .sink ∧ Upstream e.graph v k := by
  obtain ⟨hg, hin, -⟩ := grown_activateSinks ids h.drained
  have hok := h.activateSinks hsup
  constructor
  · intro hv
    refine (Engine.mem_active_activateSinks h.drained).mp hv |>.imp_right ?_
    rintro ⟨-, k, hk, hsink, hvisit⟩
    exact ⟨k, hk, hsink, hvisit.upstream⟩
  · rintro (hva | ⟨k, hk, hsink, hup⟩)
    · exact hg.mono hva
    · induction hup using Relation.ReflTransGen.head_induction_on with
      | refl => exact hin k hk hsink
      | head huw _ ih => exact hok.closed _ ih _ (by rwa [depsOf_congr hg.entries])

/-- Callbacks that send nothing leave the bridge as it is, so what reaches the sources is what the
commands carry. -/
theorem bridge_activateSinks (hp : e.pendingRemovals = []) (hsilent : ∀ id entry,
      e.graph.entries.get id = some entry → ∀ i values, entry.nodeImpl.activate i = some values →
        values = []) (ids : List NodeId) :
    (ids.foldl activateIfSink e).graph.bridge = e.graph.bridge := by
  have hfinish : ∀ (e' : Engine V) (id : NodeId) (entry : NodeEntry V),
      e'.graph.entries.get id = some entry →
      (∀ i values, entry.nodeImpl.activate i = some values → values = []) →
        (e'.finishActivation id entry.kind).graph.bridge = e'.graph.bridge := by
    intro e' id entry hentry hs
    -- Only a source's `on_activate` is given a way to send.
    cases entry.kind with
    | source =>
      simp only [finishActivation, invokeActivate]
      split
      · next values hvalues =>
        rw [hentry, Option.bind_some] at hvalues
        rw [hs id values hvalues, List.foldl_nil]
      · rfl
    | compute =>
      simp only [finishActivation, initialCompute]
      split
      · split
        · split <;> rfl
        · rfl
      · rfl
    | sink => rfl
    | asyncCompute => rfl
  induction ids generalizing e with
  | nil => rfl
  | cons id ids ih =>
    rw [List.foldl_cons]
    obtain ⟨-, heq⟩ | ⟨-, heq⟩ := activateIfSink_cases hp id
    · have hrest := sameRest_activate e id
      have hbridge : (e.activate id).graph.bridge = e.graph.bridge :=
        ((activateNode_induction (P := fun e' => e'.graph.bridge = e.graph.bridge ∧
          e'.graph.entries = e.graph.entries) (fun _ _ _ h _ _ => h)
          (fun e' i entry h _ hentry => ⟨(hfinish e' i entry hentry
              (hsilent i entry (h.2 ▸ hentry))).trans h.1,
            (sameRest_finishActivation e' i entry.kind).entries.trans h.2⟩) _ id ⟨rfl, rfl⟩).1).1
      rw [heq, ih (hrest.pendingRemovals.trans hp) (by rwa [hrest.entries]), hbridge]
    · rw [heq]
      exact ih hp hsilent

end Engine

open Engine

/-! ## What a sequence of commands determines -/

/-- The descriptors a command registers. -/
def Command.descriptors : Command V → List (NodeDescriptor V)
  | .merge subgraph _ => subgraph.descriptors
  | _ => []

/-- The nodes a command lists, among them the sinks it activates. -/
def Command.nodeIds : Command V → List NodeId
  | .merge subgraph _ => subgraph.nodeIds
  | _ => []

namespace EventLoop

/-- The engine with everything registered that the commands register, and nothing else done. Its
registry is that of the loop, whatever else the loop has done meanwhile. -/
def registered (cs : List (Command V)) : Engine V :=
  start.registerAll (cs.flatMap Command.descriptors)

/-- The node is upstream of a sink that a command merges. -/
def Needed (cs : List (Command V)) (v : NodeId) : Prop :=
  ∃ c ∈ cs, ∃ k ∈ c.nodeIds,
    HasKind (registered cs).graph k .sink ∧ Upstream (registered cs).graph v k

/-- The updates that the commands carry, in order. -/
def updates (cs : List (Command V)) : List (NodeId × V) := cs.flatMap Command.values

variable {cs : List (Command V)}

/-! ## What is registered -/

theorem registered_append (cs ds : List (Command V)) :
    registered (cs ++ ds) = (registered cs).registerAll (ds.flatMap Command.descriptors) := by
  rw [registered, List.flatMap_append, registerAll_append]
  rfl

/-- A registered node is what a descriptor of one of the merged subgraphs says. -/
theorem exists_desc_of_get {id : NodeId} {entry : NodeEntry V}
    (h : (registered cs).graph.entries.get id = some entry) :
    ∃ c ∈ cs, ∃ desc ∈ c.descriptors, desc.id = id ∧ entry.kind = desc.kind ∧
      entry.deps = desc.deps ∧ entry.nodeImpl = desc.nodeImpl := by
  obtain ⟨desc, hdesc, h⟩ := registerAll_of_none (FinMap.get_empty id) h
  obtain ⟨c, hc, hdesc⟩ := List.mem_flatMap.mp hdesc
  exact ⟨c, hc, desc, hdesc, h⟩

theorem mem_keys_registered {id : NodeId} : id ∈ (registered cs).graph.entries.keys ↔
    ∃ c ∈ cs, id ∈ c.descriptors.map NodeDescriptor.id := by
  have hstart : id ∉ (start : Engine V).graph.entries.keys := by
    rw [FinMap.notMem_keys]
    exact FinMap.get_empty id
  rw [registered, mem_keys_registerAll, or_iff_right hstart, List.map_flatMap, List.mem_flatMap]

/-! ## What the loop has reached -/

/-- The loop has processed the commands `cs`, and its cycles have drained the updates `us`. What is
waiting is the rest of the updates that the commands carry. -/
structure Reached (cs : List (Command V)) (us : List (NodeId × V)) (e : Engine V) : Prop where
  ok : e.Ok
  entries : e.graph.entries = (registered cs).graph.entries
  active : ∀ v, v ∈ e.active ↔ Needed cs v
  waiting : updates cs = us ++ e.graph.sourceRx
  results : e.asyncManager.resultRx = []
  bridge : e.graph.bridge = some []
  settled : e.Settled us

theorem Reached.start : Reached [] [] (start : Engine V) where
  ok := Ok.congr .new rfl rfl rfl rfl
  entries := rfl
  active v := ⟨fun hv => absurd hv (Finset.notMem_empty v), fun ⟨_, hc, _⟩ =>
    absurd hc List.not_mem_nil⟩
  waiting := rfl
  results := rfl
  bridge := rfl
  settled := ⟨fun v _ hv => absurd hv (Finset.notMem_empty v), fun _ _ => rfl⟩

variable {us : List (NodeId × V)} {e : Engine V}

/-- An update changes nothing but what is waiting. -/
theorem Reached.sourceUpdate (h : Reached cs us e) (id : NodeId) (value : V) :
    Reached (cs ++ [.sourceUpdate id value]) us { e with
      graph := { e.graph with sourceRx := e.graph.sourceRx ++ [(id, value)] } } := by
  have hreg : registered (cs ++ [.sourceUpdate id value]) = registered cs := registered_append cs _
  refine ⟨h.ok.congr rfl rfl rfl rfl, h.entries.trans (by rw [hreg]), fun v => ?_, ?_, h.results,
    h.bridge, h.settled.computed, h.settled.input⟩
  · refine (h.active v).trans ?_
    simp only [Needed, hreg, List.mem_append, List.mem_singleton, or_and_right, exists_or,
      exists_eq_left, Command.nodeIds, List.not_mem_nil, false_and, exists_false, or_false]
  · rw [updates, List.flatMap_append, ← updates, h.waiting, List.append_assoc]
    rfl

/-! ## Two updates exchanged -/

/-- Updates of different nodes leave the same behind in either order. -/
theorem inputs_swap {us us' : List (NodeId × V)} {u w : NodeId × V} (h : u.1 ≠ w.1) :
    inputs (us ++ w :: u :: us') = inputs (us ++ u :: w :: us') := by
  have hswap : ∀ store : ValueStore V,
      (store.setById w.1 w.2).setById u.1 u.2 = (store.setById u.1 u.2).setById w.1 w.2 := by
    refine fun store => ValueStore.ext_getById fun id => ?_
    simp only [ValueStore.getById_setById]
    by_cases hu : id = u.1
    · rw [if_pos hu, if_neg (hu ▸ h), if_pos hu]
    · rw [if_neg hu, if_neg hu]
  rw [inputs_append, inputs_append]
  exact congrArg (receive · us') (hswap _)

section Swap

variable {pre post : List (Command V)} {id id' : NodeId} {value value' : V}

theorem mem_swap (c : Command V) :
    c ∈ pre ++ .sourceUpdate id' value' :: .sourceUpdate id value :: post ↔
      c ∈ pre ++ .sourceUpdate id value :: .sourceUpdate id' value' :: post := by
  simp only [List.mem_append, List.mem_cons]
  tauto

theorem registered_swap :
    registered (pre ++ .sourceUpdate id' value' :: .sourceUpdate id value :: post) =
      registered (pre ++ .sourceUpdate id value :: .sourceUpdate id' value' :: post) := by
  simp only [registered, List.flatMap_append, List.flatMap_cons, Command.descriptors,
    List.nil_append]

end Swap

end EventLoop

/-! ## The sequences that are compared -/

section Admissible

variable [AnyValue V] (type : NodeId → TypeId)

/-- The value has the type that the readers of the node expect. -/
def Expected (id : NodeId) (value : V) : Prop := AnyValue.typeId value = type id

/-- A compute node computes: given a value of the expected type at each dependency, it gives one of
its own type. It is what keeps a node from failing, and holding on to an old value. -/
def NodeDescriptor.Typed (desc : NodeDescriptor V) : Prop :=
  desc.kind = .compute → ∀ store : ValueStore V,
    (∀ d ∈ desc.deps, ∃ value, store.getById d = some value ∧ Expected type d value) →
      ∃ result, desc.nodeImpl.compute desc.deps store = some result ∧
        Expected type desc.id result

/-- The compute nodes that builders make are of this kind, if their functions read the types that are
there. -/
theorem typed_closureComputeNode {type : NodeId → TypeId} {desc : NodeDescriptor V}
    {f : List V → V} (hdesc : desc.nodeImpl = closureComputeNode (desc.deps.map type) f)
    (hf : ∀ args, Expected type desc.id (f args)) : desc.Typed type := by
  intro _ store h
  obtain ⟨args, hargs⟩ := exists_extract h
  refine ⟨f args, ?_, hf args⟩
  rw [hdesc]
  exact congrArg (Option.map f) hargs

/-- A subgraph with every dependency of its nodes, pure computes, and activation callbacks that send
nothing. -/
structure Subgraph.Admissible (s : Subgraph V) : Prop where
  built : s.Built
  closed : ∀ desc ∈ s.descriptors, ∀ d ∈ desc.deps, d ∈ s.nodeIds
  pure : ∀ desc ∈ s.descriptors, desc.nodeImpl.Pure desc.deps
  typed : ∀ desc ∈ s.descriptors, desc.Typed type
  silent : ∀ desc ∈ s.descriptors, ∀ i values, desc.nodeImpl.activate i = some values →
    values = []

def Command.Admissible : Command V → Prop
  | .sourceUpdate id value => Expected type id value
  | .merge subgraph _ => subgraph.Admissible type
  | _ => False

namespace EventLoop

/-- Updates to sources, of the types their readers expect, and merges of admissible subgraphs, with
nothing that depends on itself. -/
structure Admissible (cs : List (Command V)) : Prop where
  each : ∀ c ∈ cs, c.Admissible type
  addressed : ∀ id value, .sourceUpdate id value ∈ cs →
    ∀ kind, HasKind (registered cs).graph id kind → kind = .source
  acyclic : Dag.Acyclic (Reads (registered cs).graph)

variable {type} {cs ds : List (Command V)}

namespace Admissible

variable (h : Admissible type cs)

include h

/-- The descriptors of an admissible sequence are those of admissible subgraphs. -/
theorem subgraph {c : Command V} (hc : c ∈ cs) {desc : NodeDescriptor V}
    (hdesc : desc ∈ c.descriptors) : ∃ s : Subgraph V, s.Admissible type ∧
      s.descriptors = c.descriptors ∧ s.nodeIds = c.nodeIds := by
  have hadm := h.each c hc
  cases c with
  | merge subgraph reply => exact ⟨subgraph, hadm, rfl, rfl⟩
  | sourceUpdate | remove | asyncComplete | sourceReady | shutdown =>
    exact absurd hdesc List.not_mem_nil

theorem closed : Closed (registered cs).graph := by
  intro v hv u hu
  obtain ⟨entry, hentry⟩ := FinMap.exists_get_of_mem_keys hv
  obtain ⟨c, hc, desc, hdesc, -, -, hdeps, -⟩ := exists_desc_of_get hentry
  obtain ⟨s, hs, hds, -⟩ := h.subgraph hc hdesc
  rw [Graph.depsOf_of_get hentry, hdeps] at hu
  refine mem_keys_registered.mpr ⟨c, hc, ?_⟩
  rw [← hds, ← hs.built.ids]
  exact hs.closed desc (hds ▸ hdesc) u hu

theorem sound : Sound (registered cs).graph := by
  refine ⟨fun id entry hentry => ?_, h.acyclic⟩
  obtain ⟨c, hc, desc, hdesc, -, -, hdeps, himpl⟩ := exists_desc_of_get hentry
  obtain ⟨s, hs, hds, -⟩ := h.subgraph hc hdesc
  rw [himpl, hdeps]
  exact hs.pure desc (hds ▸ hdesc)

theorem silent {id : NodeId} {entry : NodeEntry V}
    (hentry : (registered cs).graph.entries.get id = some entry) :
    ∀ i values, entry.nodeImpl.activate i = some values → values = [] := by
  obtain ⟨c, hc, desc, hdesc, -, -, -, himpl⟩ := exists_desc_of_get hentry
  obtain ⟨s, hs, hds, -⟩ := h.subgraph hc hdesc
  rw [himpl]
  exact hs.silent desc (hds ▸ hdesc)

/-- What is listed for a merge is registered. -/
theorem mem_keys_of_nodeIds {c : Command V} (hc : c ∈ cs) {k : NodeId} (hk : k ∈ c.nodeIds) :
    k ∈ (registered cs).graph.entries.keys := by
  refine mem_keys_registered.mpr ⟨c, hc, ?_⟩
  have hadm := h.each c hc
  cases c with
  | merge subgraph reply => exact (hadm.built.ids k).mp hk
  | sourceUpdate | remove | asyncComplete | sourceReady | shutdown =>
    exact absurd hk List.not_mem_nil

/-- No update goes to a compute node. -/
theorem not_compute {u : NodeId × V} (hu : u ∈ updates cs) :
    ¬ HasKind (registered cs).graph u.1 .compute := by
  intro hk
  obtain ⟨c, hc, hu⟩ := List.mem_flatMap.mp hu
  cases c with
  | sourceUpdate id value =>
    rw [List.mem_singleton.mp hu] at hk
    exact absurd (h.addressed id value hc _ hk) (by decide)
  | merge | remove | asyncComplete | sourceReady | shutdown => exact absurd hu List.not_mem_nil

theorem expected {u : NodeId × V} (hu : u ∈ updates cs) : Expected type u.1 u.2 := by
  obtain ⟨c, hc, hu⟩ := List.mem_flatMap.mp hu
  have hadm := h.each c hc
  cases c with
  | sourceUpdate id value =>
    rw [List.mem_singleton.mp hu]
    exact hadm
  | merge | remove | asyncComplete | sourceReady | shutdown => exact absurd hu List.not_mem_nil

end Admissible

/-- A part of an admissible sequence, from the start, is admissible. -/
theorem Admissible.initial (h : Admissible type (cs ++ ds)) : Admissible type cs where
  each c hc := h.each c (List.mem_append_left _ hc)
  addressed id value hmem kind hk := h.addressed id value (List.mem_append_left _ hmem) kind (by
    rw [registered_append]
    exact hk.registerAll _)
  acyclic := h.acyclic.mono fun u v huv => by
    rw [registered_append]
    exact reads_registerAll huv _

/-- **The network of an engine that has what is registered is total.** Given inputs of the expected
types, every node with all its values computes one. -/
theorem Admissible.total (h : Admissible type cs) {e : Engine V} (hs : Sound e.graph)
    (hentries : e.graph.entries = (registered cs).graph.entries) :
    (e.network hs).Total (Expected type) := by
  rintro v store ⟨-, entry, hentry, hk⟩ hreads
  have hdepsOf : e.graph.depsOf v = entry.deps := Graph.depsOf_of_get hentry
  obtain ⟨c, hc, desc, hdesc, rfl, hkind, hdeps, himpl⟩ :=
    exists_desc_of_get (hentries ▸ hentry)
  obtain ⟨s, hadm, hds, -⟩ := h.subgraph hc hdesc
  simp only [network, hentry, Option.bind_some, hdepsOf, hdeps, himpl] at hreads ⊢
  exact hadm.typed desc (hds ▸ hdesc) (hkind ▸ hk) store hreads

/-! ## Command after command -/

variable {us : List (NodeId × V)} {e : Engine V}

theorem Reached.sound (h : Reached cs us e) (hadm : Admissible type cs) : Sound e.graph :=
  hadm.sound.congr h.entries

/-- What a merge adds to what is needed. -/
theorem needed_merge (hadm : Admissible type cs) (subgraph : Subgraph V) (reply : ℕ)
    (v : NodeId) : Needed (cs ++ [.merge subgraph reply]) v ↔ Needed cs v ∨
      ∃ k ∈ subgraph.nodeIds,
        HasKind (registered (cs ++ [.merge subgraph reply])).graph k .sink ∧
          Upstream (registered (cs ++ [.merge subgraph reply])).graph v k := by
  have hold : ∀ c ∈ cs, ∀ k ∈ c.nodeIds,
      (HasKind (registered (cs ++ [.merge subgraph reply])).graph k .sink ∧
        Upstream (registered (cs ++ [.merge subgraph reply])).graph v k ↔
      HasKind (registered cs).graph k .sink ∧ Upstream (registered cs).graph v k) := by
    intro c hc k hk
    have hkeys := hadm.mem_keys_of_nodeIds hc hk
    rw [registered_append, hasKind_registerAll_iff hkeys,
      upstream_registerAll hadm.closed hkeys]
  constructor
  · rintro ⟨c, hc, k, hk, hkv⟩
    rcases List.mem_append.mp hc with hc | hc
    · exact Or.inl ⟨c, hc, k, hk, (hold c hc k hk).mp hkv⟩
    · rw [List.mem_singleton.mp hc] at hk
      exact Or.inr ⟨k, hk, hkv⟩
  · rintro (⟨c, hc, k, hk, hkv⟩ | ⟨k, hk, hkv⟩)
    · exact ⟨c, List.mem_append_left _ hc, k, hk, (hold c hc k hk).mpr hkv⟩
    · exact ⟨_, List.mem_append_right _ (List.mem_singleton_self _), k, hk, hkv⟩

/-- **A merge**, wherever it stands among the updates: what it activates is computed from the
values drained so far. Updates that wait will find it among the dirty nodes of the cycle that
drains them. -/
theorem Reached.merge (h : Reached cs us e) {subgraph : Subgraph V} {reply : ℕ}
    (hadm : Admissible type (cs ++ [.merge subgraph reply])) :
    Reached (cs ++ [.merge subgraph reply]) us
      (subgraph.nodeIds.foldl activateIfSink (e.registerAll subgraph.descriptors)) := by
  have hcs := hadm.initial
  have hreg : registered (cs ++ [.merge subgraph reply]) =
      (registered cs).registerAll subgraph.descriptors := by
    rw [registered_append]
    simp only [List.flatMap_cons, List.flatMap_nil, List.append_nil, Command.descriptors]
  have hentries : (e.registerAll subgraph.descriptors).graph.entries =
      (registered (cs ++ [.merge subgraph reply])).graph.entries := by
    rw [hreg]
    exact entries_registerAll_congr h.entries subgraph.descriptors
  have hok := h.ok.registerAll subgraph.descriptors
  have hsound : Sound (e.registerAll subgraph.descriptors).graph := hadm.sound.congr hentries
  have hsup : ∀ k ∈ subgraph.nodeIds,
      HasKind (e.registerAll subgraph.descriptors).graph k .sink →
        Supplied (e.registerAll subgraph.descriptors).graph k := fun k _ _ =>
    supplied_of_closed (by rw [hentries, depsOf_congr hentries]; exact hadm.closed) k
  have hgraph := graph_registerAll e subgraph.descriptors
  obtain ⟨hg, -, hrest⟩ := grown_activateSinks subgraph.nodeIds hok.drained
  have hchannels := sameChannels_activateSinks
    (e := e.registerAll subgraph.descriptors) (by rw [hgraph.2.2, h.bridge]; rfl) subgraph.nodeIds
  -- active is what is needed by a sink; the channels are as they were, since no callback sends; and
  -- values are settled by the growth of what is active
  refine ⟨hok.activateSinks hsup, hrest.entries.trans hentries, fun v => ?_, ?_, ?_, ?_, ?_⟩
  · rw [hok.mem_active_activateSinks hsup, needed_merge hcs, ← h.active v]
    simp only [HasKind.congr hentries, Upstream, reads_congr hentries]
    rfl
  · rw [hchannels.sourceRx, hgraph.2.1, ← h.waiting, updates, List.flatMap_append]
    exact List.append_nil _
  · rw [hrest.asyncManager]
    exact h.results
  · rw [bridge_activateSinks hok.drained (fun id entry hentry =>
      hadm.silent (hentries ▸ hentry)) subgraph.nodeIds, hgraph.2.2]
    exact h.bridge
  · refine (h.settled.registerAll h.ok subgraph.descriptors).grown hok hsound (fun v hk => ?_) hg
    rw [Option.eq_none_iff_forall_ne_some]
    intro value hvalue
    refine hadm.not_compute (u := (v, value)) ?_ ((HasKind.congr hentries v .compute).mp hk)
    rw [updates, List.flatMap_append, ← updates, h.waiting]
    exact List.mem_append_left _ (List.mem_append_left _ (mem_of_getById_inputs hvalue))

/-- **A cycle** drains what is waiting, whatever that is, and takes the state from one list of
drained updates to the next. -/
theorem Reached.runCycle (h : Reached cs us e) (hadm : Admissible type cs) (o : CycleOrder) :
    Reached cs (us ++ e.graph.sourceRx) (e.runCycle o) ∧ (e.runCycle o).graph.sourceRx = [] := by
  rw [Engine.runCycle, h.ok.drain_eq]
  have hframe := sameFrame_runCycleImpl o false e
  have hs := h.sound hadm
  obtain ⟨hrx, hm⟩ := channels_runCycleImpl o false e
  have hmem : ∀ u ∈ us ++ e.graph.sourceRx, u ∈ updates cs := fun u hu => h.waiting ▸ hu
  refine ⟨⟨h.ok.sameFrame hframe, hframe.entries.trans h.entries, fun v => ?_, ?_, ?_,
    hframe.bridge.trans h.bridge, ?_⟩, hrx⟩
  · rw [hframe.active]
    exact h.active v
  · rw [hrx, List.append_nil]
    exact h.waiting
  · -- with no result to drain, the manager does nothing but spawn
    have hdrain : e.asyncManager.drainResults.1.resultRx = [] :=
      (AsyncManager.SameProfile.drainResults e.asyncManager).resultRx
    rw [hm]
    clear hm
    generalize e.asyncManager.drainResults.1 = m at hdrain
    generalize e.received.spawnsOf o false e.updated = spawns
    induction spawns generalizing m with
    | nil => exact hdrain
    | cons s spawns ih =>
      exact ih _ ((AsyncManager.SameSends.spawn m s.nodeId s.future s.policy s.groupId).resultRx.trans
        hdrain)
  · refine h.settled.runCycleImpl h.ok hs (hadm.total hs h.entries)
      (fun u hu => hadm.expected (hmem u hu)) (fun u hu hk => ?_) h.results o
    exact hadm.not_compute (hmem u (List.mem_append_right _ hu))
      ((HasKind.congr h.entries u.1 .compute).mp hk)

/-- The commands of a batch, in order; a cycle is to follow if anything is waiting. -/
theorem Reached.foldl_handle {s : Iteration V} (h : Reached cs us s.engine)
    (hidle : s.hasUpdates = false → s.engine.graph.sourceRx = [])
    (hopen : s.shouldShutdown = false) (hadm : Admissible type (cs ++ ds)) :
    Reached (cs ++ ds) us (ds.foldl handle s).engine ∧
      ((ds.foldl handle s).hasUpdates = false → (ds.foldl handle s).engine.graph.sourceRx = []) ∧
      (ds.foldl handle s).shouldShutdown = false := by
  induction ds generalizing cs s with
  | nil =>
    rw [List.append_nil]
    exact ⟨h, hidle, hopen⟩
  | cons c ds ih =>
    rw [List.append_cons] at hadm ⊢
    have hc := hadm.each c (by simp)
    refine ih (s := handle s c) ?_ ?_ ?_ hadm
    · cases c with
      | sourceUpdate id value => exact h.sourceUpdate id value
      | merge subgraph reply => exact h.merge hadm.initial
      | remove | asyncComplete | sourceReady | shutdown => exact hc.elim
    · obtain ⟨hrx, -, -, hu⟩ := handle_channels s (by rw [h.bridge]; rfl) c
      -- an iteration that has nothing to update has handled no command with a value
      intro hnot
      rw [hu, Bool.or_eq_false_iff] at hnot
      rw [hrx, hidle hnot.1, List.nil_append]
      by_contra hv
      exact absurd (Command.wakes_of_values hv) (by simp [hnot.2])
    · cases c with
      | sourceUpdate | merge => exact hopen
      | remove | asyncComplete | sourceReady | shutdown => exact hc.elim

/-- **One iteration.** If no command of the batch was about updates then none is waiting, and
nothing is lost by running no cycle. -/
theorem Reached.iterate (h : Reached cs us e) (hrx : e.graph.sourceRx = [])
    (hadm : Admissible type (cs ++ ds)) (o : CycleOrder) :
    (∃ us', Reached (cs ++ ds) us' (iterate o e ds)) ∧ (iterate o e ds).graph.sourceRx = [] ∧
      (handleAll e ds).shouldShutdown = false := by
  obtain ⟨hreached, hidle, hopen⟩ := h.foldl_handle (s := ⟨e, [], false, false⟩)
    (fun _ => hrx) rfl hadm
  rw [← EventLoop.handleAll] at hreached hidle hopen
  unfold EventLoop.iterate
  simp only
  split
  · obtain ⟨hcycle, hrx'⟩ := hreached.runCycle hadm o
    exact ⟨⟨_, hcycle⟩, hrx', hopen⟩
  · next hnot => exact ⟨⟨us, hreached⟩, hidle (Bool.eq_false_iff.mpr hnot), hopen⟩

/-- **The whole sequence**, however it is cut into batches. -/
theorem Reached.runEventLoop (h : Reached cs us e) (hrx : e.graph.sourceRx = [])
    (batches : List (CycleOrder × List (Command V)))
    (hadm : Admissible type (cs ++ (batches.map Prod.snd).flatten)) :
    (∃ us', Reached (cs ++ (batches.map Prod.snd).flatten) us' (runEventLoop e batches)) ∧
      (runEventLoop e batches).graph.sourceRx = [] := by
  induction batches generalizing cs us e with
  | nil =>
    simp only [List.map_nil, List.flatten_nil, List.append_nil]
    exact ⟨⟨us, h⟩, hrx⟩
  | cons batch batches ih =>
    obtain ⟨o, ds⟩ := batch
    simp only [List.map_cons, List.flatten_cons, ← List.append_assoc] at hadm ⊢
    obtain ⟨⟨us', h'⟩, hrx', hopen⟩ := h.iterate hrx hadm.initial o
    rw [EventLoop.runEventLoop, hopen, if_neg Bool.false_ne_true]
    exact ih h' hrx' hadm

/-- Two sequences of the same commands that register alike and leave the same inputs end with the
same values, each cut in its own way. -/
theorem runEventLoop_congr {cs' : List (Command V)} (hadm : Admissible type cs)
    (hadm' : Admissible type cs') (hreg : registered cs' = registered cs)
    (hmem : ∀ c, c ∈ cs' ↔ c ∈ cs) (hinputs : inputs (updates cs') = inputs (updates cs))
    {batches batches' : List (CycleOrder × List (Command V))}
    (hb : (batches.map Prod.snd).flatten = cs) (hb' : (batches'.map Prod.snd).flatten = cs') :
    (runEventLoop start batches').graph.valueStore =
      (runEventLoop start batches).graph.valueStore := by
  subst hb hb'
  obtain ⟨⟨us, h⟩, hrx⟩ := Reached.start.runEventLoop rfl batches hadm
  obtain ⟨⟨us', h'⟩, hrx'⟩ := Reached.start.runEventLoop rfl batches' hadm'
  simp only [List.nil_append] at h h'
  -- everything has been drained
  have hus := h.waiting
  have hus' := h'.waiting
  rw [hrx, List.append_nil] at hus
  rw [hrx', List.append_nil] at hus'
  refine h.settled.unique h'.settled (h.sound hadm) ?_ ?_ ?_
  · rw [h'.entries, h.entries, hreg]
  · ext v
    rw [h'.active, h.active, Needed, Needed, hreg]
    simp only [hmem]
  · rw [← hus, ← hus', hinputs]

section Swap

variable {pre post : List (Command V)} {id id' : NodeId} {value value' : V}

theorem Admissible.swap
    (h : Admissible type (pre ++ .sourceUpdate id value :: .sourceUpdate id' value' :: post)) :
    Admissible type (pre ++ .sourceUpdate id' value' :: .sourceUpdate id value :: post) where
  each c hc := h.each c ((mem_swap c).mp hc)
  addressed i v hc kind hk := h.addressed i v ((mem_swap _).mp hc) kind (by rwa [← registered_swap])
  acyclic := by
    rw [registered_swap]
    exact h.acyclic

end Swap

/-- **Batching is invisible in the final values**: for every sequence of updates and merges, every
way to cut it into batches ends with the same store, and so does every way to cut the sequence in
which two adjacent updates of different nodes have changed places.

Each batch comes with the walks of its cycle, and these may differ as well. Exchanging updates of
one node would not do: the later one wins. -/
theorem batching_invisible (hadm : Admissible type cs) :
    (∀ batches batches' : List (CycleOrder × List (Command V)),
      (batches.map Prod.snd).flatten = cs → (batches'.map Prod.snd).flatten = cs →
        (runEventLoop start batches').graph.valueStore =
          (runEventLoop start batches).graph.valueStore) ∧
    ∀ pre post id id' value value',
      cs = pre ++ .sourceUpdate id value :: .sourceUpdate id' value' :: post → id ≠ id' →
        ∀ batches batches' : List (CycleOrder × List (Command V)),
          (batches.map Prod.snd).flatten = cs →
          (batches'.map Prod.snd).flatten =
            pre ++ .sourceUpdate id' value' :: .sourceUpdate id value :: post →
          (runEventLoop start batches').graph.valueStore =
            (runEventLoop start batches).graph.valueStore := by
  refine ⟨fun batches batches' hb hb' => ?_, ?_⟩
  · exact runEventLoop_congr hadm hadm rfl (fun _ => Iff.rfl) rfl hb hb'
  · rintro pre post id id' value value' rfl hne batches batches' hb hb'
    refine runEventLoop_congr hadm hadm.swap registered_swap mem_swap ?_ hb hb'
    simp only [updates, List.flatMap_append, List.flatMap_cons, Command.values, List.cons_append,
      List.nil_append]
    exact inputs_swap hne

end EventLoop

end Admissible

/-! ## A sequence cut in two ways -/

namespace Sample

/-- All numbers have one type. -/
instance : AnyValue ℕ := ⟨fun _ => 0⟩

/-- Two sources, their sum, and a sink, as the builders make them. -/
def sumGraph : Subgraph ℕ := SubgraphBuilder.ofList
  [⟨nodeId 0, .source, [], closureSource none⟩, ⟨nodeId 1, .source, [], closureSource none⟩,
    ⟨nodeId 2, .compute, [nodeId 0, nodeId 1], closureComputeNode [0, 0] List.sum⟩,
    ⟨nodeId 3, .sink, [nodeId 2], closureSinkNode⟩]

theorem admissible_sumGraph : sumGraph.Admissible fun _ => 0 := by
  have hdescs : ∀ desc ∈ sumGraph.descriptors, desc.nodeImpl.Pure desc.deps ∧
      (desc.Typed fun _ => 0) ∧
      ∀ i values, desc.nodeImpl.activate i = some values → values = [] := by
    intro desc hdesc
    have hmem := SubgraphBuilder.mem_descriptors_ofList hdesc
    simp only [List.mem_cons, List.not_mem_nil, or_false] at hmem
    rcases hmem with rfl | rfl | rfl | rfl
    · exact ⟨pure_of_compute_none fun _ => rfl, fun hk => absurd hk (by decide), by
        simp [closureSource]⟩
    · exact ⟨pure_of_compute_none fun _ => rfl, fun hk => absurd hk (by decide), by
        simp [closureSource]⟩
    · exact ⟨pure_closureComputeNode rfl _, typed_closureComputeNode rfl fun _ => rfl, by
        simp [closureComputeNode]⟩
    · exact ⟨pure_of_compute_none fun _ => rfl, fun hk => absurd hk (by decide), by
        simp [closureSinkNode]⟩
  exact ⟨SubgraphBuilder.built_ofList _, by decide +kernel, fun desc h => (hdescs desc h).1,
    fun desc h => (hdescs desc h).2.1, fun desc h => (hdescs desc h).2.2⟩

end Sample

open Sample EventLoop in
theorem batching_invisible_sum :
    (runEventLoop start [(default, [.sourceUpdate (nodeId 0) 5]), (default, [.merge sumGraph 0]),
        (default, [.sourceUpdate (nodeId 1) 7])]).graph.valueStore =
      (runEventLoop start [(default, [.sourceUpdate (nodeId 0) 5, .merge sumGraph 0,
        .sourceUpdate (nodeId 1) 7])]).graph.valueStore ∧
    (runEventLoop start [(default, [.sourceUpdate (nodeId 0) 5, .merge sumGraph 0,
        .sourceUpdate (nodeId 1) 7])]).graph.valueStore.getById (nodeId 2) = some 12 := by
  have hadm : Admissible (fun _ => 0) ([.sourceUpdate (nodeId 0) 5, .merge sumGraph 0,
      .sourceUpdate (nodeId 1) 7] : List (Command ℕ)) := by
    refine ⟨fun c hc => ?_, fun id value hc kind hk => ?_,
      acyclic_of_rank NodeId.typeId (by decide +kernel)⟩
    · simp only [List.mem_cons, List.not_mem_nil, or_false] at hc
      rcases hc with rfl | rfl | rfl
      · exact rfl
      · exact admissible_sumGraph
      · exact rfl
    · simp only [List.mem_cons, List.not_mem_nil, or_false, Command.sourceUpdate.injEq,
        reduceCtorEq, false_or] at hc
      rcases hc with ⟨rfl, -⟩ | ⟨rfl, -⟩
      · exact hk.unique (by decide +kernel)
      · exact hk.unique (by decide +kernel)
  exact ⟨(batching_invisible hadm).1 _ _ rfl rfl, by decide +kernel⟩

end ReactiveGraph
