import ReactiveGraph.Proof.AsyncRuns
import ReactiveGraph.Proof.Erasure
import ReactiveGraph.Proof.Values

/-!
# An id's next life

When the last reference to a node goes, `deactivate_node` takes its entry, its value, its edges, its
guard and its error strategy. What the async manager has under the id stays: the policy and the
group it recorded at the first spawn, the running task, a result that was sent and not received, the
futures that wait behind the node's earlier ones or behind its group. A node that is registered
under the id afterwards meets all of it.

`Traced` is a session with a record of what the engine cannot tell apart: each future carries the
*life* of its id in which it was triggered, how often the id had been newly registered by then, and
each stored value is on record with the life it came from. The marks change nothing
(`Traced.session_run`, `Traced.erased_run`), and the record misses no value but those that compute
nodes give (`Traced.recorded_run`). A life is untouched by earlier ones if the results stored in it
and the policies applied in it are its own, and that is so throughout every run that registers an id
newly only when nothing of an earlier life is left under it (`Traced.lives_apart`).

**The manager with marks is the same manager.** Its definition takes futures of any type, so the
marked run uses it at pairs of a life and a value, and forgetting the marks commutes with every
operation (`Maps`). No second definition of a policy is needed, and what the marked run stores is
what the engine stores.

**How an async node is removed.** It is built on the graph, which hands out no handle for it. It
goes when something that depends on it goes: a merged sink that reads it is dropped, and the cascade
takes a reference from the node. So the program that meets its own past has done nothing out of the
ordinary; it has registered a node, had a sink on it for a while, and registered the node again.

The condition, `Fresh`, is about the state before a registration: no future of the id runs, has
sent, or waits anywhere, and the policy on record, if there is one, is the one the new node has.
-/

namespace ReactiveGraph

variable {V : Type*}

open Engine

/-! ## What activation writes -/

namespace Engine

variable {e : Engine V} {id : NodeId}

/-- Activation computes compute nodes, and writes nothing else. -/
theorem getById_finishActivation {id' : NodeId} {entry : NodeEntry V}
    (hentry : e.graph.entries.get id' = some entry) (hk : ¬ HasKind e.graph id .compute) :
    (e.finishActivation id' entry.kind).graph.valueStore.getById id =
      e.graph.valueStore.getById id := by
  by_cases hkind : entry.kind = .compute
  · refine store_finishActivation_of_ne _ _ ?_
    rintro rfl
    exact hk ⟨entry, hentry, hkind⟩
  · rw [store_finishActivation_of_ne_compute _ _ hkind]

theorem getById_activate (hk : ¬ HasKind e.graph id .compute) (id' : NodeId) :
    (e.activate id').graph.valueStore.getById id = e.graph.valueStore.getById id := by
  have h := activateNode_induction (e := e) (P := fun e' => e'.graph.entries = e.graph.entries ∧
      e'.graph.valueStore.getById id = e.graph.valueStore.getById id)
    (fun _ _ _ h _ _ => h) (fun e' id' entry h _ hentry => ?_) e.graph.entries.keys.card id'
    ⟨rfl, rfl⟩
  · exact h.1.2
  · have hk' : ¬ HasKind e'.graph id .compute := fun hk' => hk ((HasKind.congr h.1 id _).mp hk')
    exact ⟨(sameRest_finishActivation e' id' entry.kind).entries.trans h.1,
      (getById_finishActivation hentry hk').trans h.2⟩

theorem getById_activateSinks (ids : List NodeId) (hp : e.pendingRemovals = [])
    (hk : ¬ HasKind e.graph id .compute) :
    (ids.foldl activateIfSink e).graph.valueStore.getById id =
      e.graph.valueStore.getById id := by
  induction ids generalizing e with
  | nil => rfl
  | cons id' ids ih =>
    rw [List.foldl_cons]
    obtain ⟨-, h⟩ | ⟨-, h⟩ := activateIfSink_cases hp id'
    · have hrest := sameRest_activate e id'
      rw [h, ih (hrest.pendingRemovals.trans hp)
        fun hk' => hk ((HasKind.congr hrest.entries id _).mp hk')]
      exact getById_activate hk id'
    · rw [h]
      exact ih hp hk

/-- What is stored after a cycle was received, or a compute node gave it. -/
theorem getById_of_runCycleImpl {o : CycleOrder} {parallel : Bool}
    (hk : ¬ HasKind e.graph id .compute) {value : V}
    (hv : (runCycleImpl o parallel e).graph.valueStore.getById id = some value) :
    e.received.graph.valueStore.getById id = some value := by
  have hresp : Respects e.graph.entries fun store => ∀ value, store.getById id = some value →
      e.received.graph.valueStore.getById id = some value := by
    refine ⟨?_, ?_⟩
    · intro store id' entry store' value' hs hentry hkind _ value hv
      obtain ⟨rfl, -⟩ | ⟨-, hv⟩ := ValueStore.getById_setById_eq_some.mp hv
      · exact absurd ⟨entry, hentry, hkind⟩ hk
      · exact hs value hv
    · intro store id' entry hs _ value hv
      exact hs value (ValueStore.getById_remove_eq_some.mp hv).2
  exact hresp.runCycleImpl o parallel (fun _ h => h) value hv

end Engine

/-! ## What a call removes and registers -/

namespace Call

/-- The engine once the call has made its removals. What a call removes it removes before anything
else. -/
def pruned (s : Session V) : Call V → Engine V
  | .graph | .merge _ | .activateSink _ | .runCycle _ | .runCycleParallel _ =>
    s.engine.drainPendingRemovals
  | .remove =>
    match s.removes with
    | nodeIds :: _ => s.engine.release nodeIds
    | [] => s.engine
  | .deactivateNode id => s.engine.deactivate id
  | _ => s.engine

def registrations : Call V → List (NodeDescriptor V)
  | .register desc => [desc]
  | .merge descs => (SubgraphBuilder.ofList descs).descriptors
  | _ => []

/-- What the call newly registers under an id. -/
def installs (s : Session V) (c : Call V) (id : NodeId) : Option (NodeDescriptor V) :=
  if id ∈ (c.pruned s).graph.entries.keys then none else c.registrations.find? (·.id = id)

/-- What the call does to the async manager, cycles apart. -/
def manage {F : Type*} (m : AsyncManager F) : Call V → AsyncManager F
  | .concurrencyGroup n => (m.createGroup n).1
  | .interpose => m.setNotifier
  | .complete task => m.complete task
  | _ => m

variable {s : Session V} {c : Call V}

theorem shrinks_pruned (s : Session V) (c : Call V) : Shrinks s.engine (c.pruned s) := by
  cases c with
  | graph | merge | activateSink | runCycle | runCycleParallel =>
    exact shrinks_drainPendingRemovals s.engine
  | remove =>
    simp only [pruned]
    split
    · next nodeIds _ _ => exact shrinks_release s.engine nodeIds
    · exact .refl _
  | deactivateNode id => exact shrinks_deactivate s.engine id
  | register | dropHandle | dropRemote | setErrorStrategy | concurrencyGroup | interpose | send
  | update | forward | complete => exact .refl _

/-- What a call other than a cycle leads to: a registry of what the removals have left and what the
call registers, no new value but of a compute node, and the async manager as the call manages it.
The marks need no more of a call than this. -/
structure Leads (s : Session V) (c : Call V) (e : Engine V) : Prop where
  entries : e.graph.entries = ((c.pruned s).registerAll c.registrations).graph.entries
  getById : ∀ id, ¬ HasKind e.graph id .compute →
    e.graph.valueStore.getById id = (c.pruned s).graph.valueStore.getById id
  asyncManager : e.asyncManager = c.manage (c.pruned s).asyncManager

/-- **The rule for calls other than cycles.** -/
theorem leads_apply (s : Session V) (hc : c.cycle = none) : c.Leads s (s.apply c).engine := by
  cases c with
  | graph | deactivateNode | setErrorStrategy | concurrencyGroup | interpose | update | complete =>
    exact ⟨rfl, fun _ _ => rfl, rfl⟩
  | register desc =>
    refine ⟨rfl, fun id _ => ?_, rfl⟩
    rw [Session.apply, (graph_registerAll s.engine [desc]).1]
    rfl
  | merge descs =>
    have hp : (s.engine.drainPendingRemovals.registerAll
        (SubgraphBuilder.ofList descs).descriptors).pendingRemovals = [] :=
      pendingRemovals_drainPendingRemovals s.engine
    have hrest := sameRest_merge s.engine (SubgraphBuilder.ofList descs)
    refine ⟨hrest.entries, fun id hk => ?_, hrest.asyncManager⟩
    -- the values a merge writes are those of compute nodes
    have hk' := fun hk' => hk ((HasKind.congr hrest.entries id .compute).mpr hk')
    refine (getById_activateSinks (SubgraphBuilder.ofList descs).nodeIds hp hk').trans ?_
    rw [(graph_registerAll _ _).1]
    rfl
  | dropHandle i =>
    simp only [Session.apply]
    split
    · unfold Engine.dropHandle
      split <;> exact ⟨rfl, fun _ _ => rfl, rfl⟩
    · exact ⟨rfl, fun _ _ => rfl, rfl⟩
  | dropRemote i =>
    simp only [Session.apply]
    split <;> exact ⟨rfl, fun _ _ => rfl, rfl⟩
  | remove =>
    have hpruned : (s.apply .remove).engine = pruned s .remove := by
      simp only [Session.apply, pruned]
      cases s.removes <;> rfl
    rw [hpruned]
    exact ⟨rfl, fun _ _ => rfl, rfl⟩
  | activateSink id =>
    have hrest := sameRest_activate s.engine.drainPendingRemovals id
    exact ⟨hrest.entries, fun id' hk => getById_activate
      (fun hk' => hk ((HasKind.congr hrest.entries id' .compute).mpr hk')) id, hrest.asyncManager⟩
  | send id value =>
    have hsame := sameNodes_send s.engine id value
    refine ⟨hsame.entries, fun id' _ => ?_, rfl⟩
    rw [Session.apply, hsame.store]
    rfl
  | forward =>
    simp only [Session.apply, Engine.forward]
    split <;> exact ⟨rfl, fun _ _ => rfl, rfl⟩
  | runCycle | runCycleParallel => exact absurd hc (by simp [cycle])

/-- A cycle makes the removals that are due and registers nothing. -/
theorem pruned_of_cycle (s : Session V) {p : CycleOrder × Bool} (hc : c.cycle = some p) :
    c.pruned s = s.engine.drainPendingRemovals ∧ c.registrations = [] := by
  cases c with
  | runCycle | runCycleParallel => exact ⟨rfl, rfl⟩
  | _ => exact absurd hc (by simp [cycle])

theorem engine_apply_cycle (s : Session V) {o : CycleOrder} {parallel : Bool}
    (hc : c.cycle = some (o, parallel)) :
    (s.apply c).engine = runCycleImpl o parallel (c.pruned s) := by
  rw [Session.engine_apply_cycle hc, (pruned_of_cycle s hc).1]

/-- **The registry after a call** has what the call has not removed and what it registers. -/
theorem entries_apply (s : Session V) (c : Call V) : (s.apply c).engine.graph.entries =
    ((c.pruned s).registerAll c.registrations).graph.entries := by
  cases hc : c.cycle with
  | none => exact (leads_apply s hc).entries
  | some p =>
    rw [engine_apply_cycle s hc, (sameFrame_runCycleImpl p.1 p.2 _).entries,
      (pruned_of_cycle s hc).2]
    rfl

/-- **What is registered after a call** was registered before and kept, or is new. New means that
the removals of the call have left nothing under the id. -/
theorem get_entries_apply {id : NodeId} {entry : NodeEntry V}
    (h : (s.apply c).engine.graph.entries.get id = some entry) :
    (∃ old, s.engine.graph.entries.get id = some old ∧ ¬ Removed s.engine (c.pruned s) id ∧
        c.installs s id = none ∧ entry.kind = old.kind ∧ entry.nodeImpl = old.nodeImpl) ∨
      ∃ desc, c.installs s id = some desc ∧ entry.kind = desc.kind ∧
        entry.nodeImpl = desc.nodeImpl := by
  rw [entries_apply, get_registerAll] at h
  cases hkept : (c.pruned s).graph.entries.get id with
  | some kept =>
    obtain ⟨old, hold, hk, -, himpl⟩ := (shrinks_pruned s c).entries id kept hkept
    have hmem := FinMap.mem_keys_of_get hkept
    rw [hkept, registeredEntry, Option.some.injEq] at h
    refine Or.inl ⟨old, hold, fun hr => hr.2 hmem, if_pos hmem, ?_, ?_⟩
    · rw [← h, ← hk]
    · rw [← h, ← himpl]
  | none =>
    rw [hkept] at h
    obtain ⟨desc, hdesc, rfl⟩ := Option.map_eq_some_iff.mp h
    refine Or.inr ⟨desc, ?_, rfl, rfl⟩
    rw [installs, if_neg (FinMap.notMem_keys.mpr hkept)]
    exact hdesc

/-- A node that stays keeps its kind. -/
theorem hasKind_apply {id : NodeId} {kind : NodeKind} (h : HasKind s.engine.graph id kind)
    (hr : ¬ Removed s.engine (c.pruned s) id) : HasKind (s.apply c).engine.graph id kind := by
  obtain ⟨entry, hentry, hk⟩ := h
  have hmem : id ∈ (c.pruned s).graph.entries.keys := by
    by_contra hnot
    exact hr ⟨FinMap.mem_keys_of_get hentry, hnot⟩
  obtain ⟨kept, hkept⟩ := FinMap.exists_get_of_mem_keys hmem
  obtain ⟨entry', hentry', hk', -⟩ := (shrinks_pruned s c).entries id kept hkept
  obtain rfl := Option.some.inj (hentry.symm.trans hentry')
  have hstays : HasKind (c.pruned s).graph id kind := ⟨kept, hkept, hk'.trans hk⟩
  exact (HasKind.congr (entries_apply s c) id kind).mpr (hstays.registerAll c.registrations)

theorem mem_registrations {id : NodeId} {desc : NodeDescriptor V}
    (h : c.installs s id = some desc) : id ∈ c.registrations.map NodeDescriptor.id := by
  unfold installs at h
  split at h
  · exact absurd h (by simp)
  · have hid : desc.id = id := by simpa using List.find?_some h
    rw [← hid]
    exact List.mem_map_of_mem (List.mem_of_find?_eq_some h)

end Call

/-! ## Profiles -/

/-- The policy and the group that an implementation was registered with. -/
def AnyNodeImpl.profile (impl : AnyNodeImpl V) : AsyncPolicy × Option ℕ :=
  (impl.asyncPolicy, impl.concurrencyGroupId)

namespace AsyncManager

variable {F G : Type*} {f : F → G} {m : AsyncManager F} {m' : AsyncManager G}

theorem Maps.profileOf (h : Maps f m m') (id : NodeId) : m'.profileOf id = m.profileOf id := by
  unfold AsyncManager.profileOf
  rw [h.nodeStates, Option.map_map]
  rfl

/-- No future of the node runs, is sent and not received, or waits behind another one of the node's
or behind a group. Nothing can come out for the id, then, but what is spawned later. -/
structure FreeOf (m : AsyncManager F) (id : NodeId) : Prop where
  running : ∀ task ∈ m.runtime.running, task.nodeId ≠ id
  results : ∀ result ∈ m.resultRx, result.1 ≠ id
  pending : ∀ state ∈ m.nodeStates.get id, state.pending = []
  queued : ∀ gid ∈ m.groups.keys, ∀ group ∈ m.groups.get gid, ∀ work ∈ group.queue,
    work.nodeId ≠ id

instance (m : AsyncManager F) (id : NodeId) : Decidable (m.FreeOf id) :=
  decidable_of_iff
    ((∀ task ∈ m.runtime.running, task.nodeId ≠ id) ∧ (∀ result ∈ m.resultRx, result.1 ≠ id) ∧
      (∀ state ∈ m.nodeStates.get id, state.pending = []) ∧
      ∀ gid ∈ m.groups.keys, ∀ group ∈ m.groups.get gid, ∀ work ∈ group.queue, work.nodeId ≠ id)
    ⟨fun ⟨h₁, h₂, h₃, h₄⟩ => ⟨h₁, h₂, h₃, h₄⟩,
      fun h => ⟨h.running, h.results, h.pending, h.queued⟩⟩

theorem FreeOf.holds {id : NodeId} (h : m.FreeOf id) : m.Holds fun id' _ => id' ≠ id where
  running := h.running
  results := h.results
  pending id' state hs future hf := by
    rintro rfl
    rw [h.pending state hs] at hf
    exact List.not_mem_nil hf
  queued gid group hg := h.queued gid (FinMap.mem_keys_of_get hg) group hg

/-- What the futures satisfy once `f` is applied, they satisfy before in that sense. -/
theorem Maps.holds {Q : NodeId → G → Prop} (h : Maps f m m') (hq : m'.Holds Q) :
    m.Holds fun id future => Q id (f future) where
  running task ht := hq.running (task.map f) (by
    rw [h.running]
    exact List.mem_map_of_mem ht)
  results result hr := hq.results (result.1, f result.2) (by
    rw [h.resultRx]
    exact List.mem_map_of_mem (f := fun result => (result.1, f result.2)) hr)
  pending id state hs future hf := hq.pending id (state.map f) (by rw [h.nodeStates, hs]; rfl)
    (f future) (List.mem_map_of_mem hf)
  queued gid group hg work hw := hq.queued gid (group.map f) (by rw [h.groups, hg]; rfl)
    (work.map f) (List.mem_map_of_mem hw)

theorem Holds.and {Q Q' : NodeId → F → Prop} (h : m.Holds Q) (h' : m.Holds Q') :
    m.Holds fun id future => Q id future ∧ Q' id future where
  running task ht := ⟨h.running task ht, h'.running task ht⟩
  results result hr := ⟨h.results result hr, h'.results result hr⟩
  pending id state hs future hf :=
    ⟨h.pending id state hs future hf, h'.pending id state hs future hf⟩
  queued gid group hg work hw := ⟨h.queued gid group hg work hw, h'.queued gid group hg work hw⟩

theorem Holds.forall {ι : Type*} {P : ι → Prop} {Q : ι → NodeId → F → Prop}
    (h : ∀ i, P i → m.Holds (Q i)) : m.Holds fun id future => ∀ i, P i → Q i id future where
  running task ht i hi := (h i hi).running task ht
  results result hr i hi := (h i hi).results result hr
  pending id state hs future hf i hi := (h i hi).pending id state hs future hf
  queued gid group hg work hw i hi := (h i hi).queued gid group hg work hw

end AsyncManager

/-! ## Runs with marks -/

/-- What a spawn came to. -/
structure Spawned where
  nodeId : NodeId
  /-- The policy and the group that were applied. -/
  applied : AsyncPolicy × Option ℕ
  /-- Those that the node is registered with. -/
  registered : Option (AsyncPolicy × Option ℕ)
  deriving DecidableEq

/-- Where a stored value comes from. -/
structure Origin (V : Type*) where
  value : V
  /-- The life of the future it is the result of; `none` for a message from a source. -/
  life : Option ℕ
  deriving DecidableEq

/-- A session, and what it would take to tell an id's lives apart. The engine has none of the last
four fields. -/
structure Traced (V : Type*) where
  session : Session V
  /-- The async manager, each future with the life of its node in which it was triggered. -/
  manager : AsyncManager (ℕ × V)
  /-- How often the id has been newly registered. -/
  life : NodeId → ℕ
  /-- What a drain last wrote under the id, unless the node has been removed since. -/
  origin : NodeId → Option (Origin V)
  /-- The spawns so far. -/
  spawned : List Spawned

namespace Traced

def init : Traced V := ⟨.init, .new, fun _ => 0, fun _ => none, []⟩

abbrev entries (t : Traced V) : FinMap NodeId (NodeEntry V) := t.session.engine.graph.entries

/-- The call is made. With a removal the value goes, and a new registration begins a life. -/
def step (t : Traced V) (c : Call V) : Traced V :=
  { t with
    session := t.session.apply c
    life := fun id => if (c.installs t.session id).isSome then t.life id + 1 else t.life id
    origin := fun id =>
      if Removed t.session.engine (c.pruned t.session) id then none else t.origin id }

def write (origin : NodeId → Option (Origin V)) (writes : List (NodeId × Origin V)) :
    NodeId → Option (Origin V) :=
  writes.foldl (fun origin w => Function.update origin w.1 (some w.2)) origin

/-- The drains of a cycle: messages from sources are written first, and then the results. -/
def receive (t : Traced V) (sourceRx : List (NodeId × V)) : Traced V :=
  { t with
    manager := t.manager.drainResults.1
    origin := write t.origin (sourceRx.map (fun msg => (msg.1, ⟨msg.2, none⟩)) ++
      t.manager.drainResults.2.map fun result => (result.1, ⟨result.2.2, some result.2.1⟩)) }

/-- A future is spawned in the present life of its node. -/
def spawn (t : Traced V) (s : AsyncSpawn V) : Traced V :=
  let state := t.manager.stateOr s.nodeId s.policy s.groupId
  { t with
    manager := t.manager.spawn s.nodeId (t.life s.nodeId, s.future) s.policy s.groupId
    spawned := t.spawned ++ [⟨s.nodeId, (state.policy, state.groupId),
      (t.entries.get s.nodeId).map fun entry => entry.nodeImpl.profile⟩] }

/-- What a call does: a cycle drains and spawns, with the engine as the removals leave it. -/
def apply (t : Traced V) (c : Call V) : Traced V :=
  match c.cycle with
  | none => { t.step c with manager := c.manage t.manager }
  | some (o, parallel) =>
    let e := c.pruned t.session
    (e.received.spawnsOf o parallel e.updated).foldl spawn ((t.step c).receive e.graph.sourceRx)

/-- The results stored for registered nodes are of their present life, and every spawn applied the
policy and the group that the node was registered with. -/
structure Untouched (t : Traced V) : Prop where
  values : ∀ id ∈ t.entries.keys, ∀ origin ∈ t.origin id, ∀ life ∈ origin.life, life = t.life id
  spawns : ∀ s ∈ t.spawned, s.registered = some s.applied

/-- Nothing of an earlier life is left under the id of a node that is about to be registered. -/
structure Clean (t : Traced V) (c : Call V) (id : NodeId) (desc : NodeDescriptor V) : Prop where
  value : ∀ origin ∈ (t.step c).origin id, origin.life = none
  futures : t.session.engine.asyncManager.FreeOf id
  profile : desc.kind = .asyncCompute →
    ∀ profile ∈ t.session.engine.asyncManager.profileOf id, profile = desc.nodeImpl.profile

/-- Whatever the call newly registers finds nothing of an earlier life. A call that registers what
is there already is not concerned. -/
def Fresh (t : Traced V) (c : Call V) : Prop :=
  ∀ id, ∀ desc ∈ c.installs t.session id, t.Clean c id desc

instance (t : Traced V) : Decidable t.Untouched :=
  decidable_of_iff
    ((∀ id ∈ t.entries.keys, ∀ origin ∈ t.origin id, ∀ life ∈ origin.life, life = t.life id) ∧
      ∀ s ∈ t.spawned, s.registered = some s.applied)
    ⟨fun ⟨h₁, h₂⟩ => ⟨h₁, h₂⟩, fun h => ⟨h.values, h.spawns⟩⟩

instance (t : Traced V) (c : Call V) (id : NodeId) (desc : NodeDescriptor V) :
    Decidable (t.Clean c id desc) :=
  decidable_of_iff
    ((∀ origin ∈ (t.step c).origin id, origin.life = none) ∧
      t.session.engine.asyncManager.FreeOf id ∧ (desc.kind = .asyncCompute →
        ∀ profile ∈ t.session.engine.asyncManager.profileOf id, profile = desc.nodeImpl.profile))
    ⟨fun ⟨h₁, h₂, h₃⟩ => ⟨h₁, h₂, h₃⟩, fun h => ⟨h.value, h.futures, h.profile⟩⟩

/-- A call registers nothing but what is on its list. -/
instance (t : Traced V) (c : Call V) : Decidable (t.Fresh c) :=
  decidable_of_iff
    (∀ id ∈ c.registrations.map NodeDescriptor.id, ∀ desc ∈ c.installs t.session id,
      t.Clean c id desc)
    ⟨fun h id desc hdesc => h id (Call.mem_registrations hdesc) desc hdesc, fun h id _ => h id⟩

/-! ## The marks change nothing -/

theorem foldl_spawn (t : Traced V) (spawns : List (AsyncSpawn V)) :
    (spawns.foldl spawn t).session = t.session ∧ (spawns.foldl spawn t).life = t.life ∧
      (spawns.foldl spawn t).origin = t.origin := by
  induction spawns generalizing t with
  | nil => exact ⟨rfl, rfl, rfl⟩
  | cons s spawns ih => exact ih (t.spawn s)

theorem session_apply (t : Traced V) (c : Call V) : (t.apply c).session = t.session.apply c := by
  unfold apply
  split
  · rfl
  · exact (foldl_spawn _ _).1

/-- **Without the marks a run is the run.** The session never looks at them. -/
theorem session_run (calls : List (Call V)) (t : Traced V) :
    (Runs.run apply t calls).session = Runs.run Session.apply t.session calls := by
  induction calls generalizing t with
  | nil => rfl
  | cons c calls ih => rw [Runs.run_cons, ih, session_apply, Runs.run_cons]

/-- The engine's manager has the futures that the marks are on. -/
def Erased (t : Traced V) : Prop := t.manager.Maps Prod.snd t.session.engine.asyncManager

theorem maps_manage {m : AsyncManager (ℕ × V)} {m' : AsyncManager V} (h : m.Maps Prod.snd m')
    (c : Call V) : (c.manage m).Maps Prod.snd (c.manage m') := by
  cases c with
  | concurrencyGroup n => exact h.createGroup n
  | interpose => exact h.setNotifier
  | complete task => exact h.complete task
  | graph | register | merge | dropHandle | dropRemote | remove | deactivateNode | activateSink
  | setErrorStrategy | send | update | forward | runCycle | runCycleParallel => exact h

theorem maps_foldl_spawn (spawns : List (AsyncSpawn V)) {t : Traced V} {m : AsyncManager V}
    (h : t.manager.Maps Prod.snd m) : (spawns.foldl spawn t).manager.Maps Prod.snd
      (spawns.foldl (fun m s => m.spawn s.nodeId s.future s.policy s.groupId) m) := by
  induction spawns generalizing t m with
  | nil => exact h
  | cons s spawns ih =>
    exact ih (h.spawn s.nodeId (t.life s.nodeId, s.future) s.policy s.groupId)

theorem Erased.apply {t : Traced V} (h : t.Erased) (c : Call V) : (t.apply c).Erased := by
  unfold Erased
  rw [session_apply]
  cases hc : c.cycle with
  | none =>
    rw [(Call.leads_apply t.session hc).asyncManager,
      (Call.shrinks_pruned t.session c).asyncManager]
    simp only [Traced.apply, hc]
    exact maps_manage h c
  | some p =>
    obtain ⟨o, parallel⟩ := p
    rw [Call.engine_apply_cycle t.session hc, (channels_runCycleImpl o parallel _).2,
      (Call.shrinks_pruned t.session c).asyncManager]
    simp only [Traced.apply, hc]
    exact maps_foldl_spawn _ (AsyncManager.Maps.drainResults h)

/-- **In every run the manager with the marks is the engine's.** By one lemma for each operation of
the manager, about any function on futures. -/
theorem erased_run (calls : List (Call V)) : (Runs.run apply init calls).Erased :=
  Runs.invariant_of_step (I := Erased) (fun _ c h => h.apply c) .new

/-- Every stored value is on record, those that compute nodes gave apart. -/
def Recorded (t : Traced V) : Prop :=
  ∀ id value, t.session.engine.graph.valueStore.getById id = some value →
    HasKind t.session.engine.graph id .compute ∨ ∃ origin ∈ t.origin id, origin.value = value

/-- Removals take a value and its record alike. -/
theorem Recorded.step {t : Traced V} (h : t.Recorded) {c : Call V} {id : NodeId}
    (hk : ¬ HasKind (t.session.apply c).engine.graph id .compute) {value : V}
    (hv : (c.pruned t.session).graph.valueStore.getById id = some value) :
    ∃ origin ∈ (t.step c).origin id, origin.value = value := by
  have hshrinks := Call.shrinks_pruned t.session c
  have hkept : ¬ Removed t.session.engine (c.pruned t.session) id := by
    intro hr
    rw [hshrinks.store_removed id hr] at hv
    exact absurd hv (by simp)
  have horigin : (t.step c).origin id = t.origin id := if_neg hkept
  rw [hshrinks.store id hkept] at hv
  rw [horigin]
  exact (h id value hv).resolve_left fun hk' => hk (Call.hasKind_apply hk' hkept)

/-- The drains write the store and the record alike. -/
theorem recorded_receive {id : NodeId} (writes : List (NodeId × Origin V)) {store : ValueStore V}
    {origin : NodeId → Option (Origin V)}
    (h : ∀ value, store.getById id = some value → ∃ o ∈ origin id, o.value = value) :
    ∀ value, (Engine.receive store (writes.map fun w => (w.1, w.2.value))).getById id = some value →
      ∃ o ∈ write origin writes id, o.value = value := by
  induction writes generalizing store origin with
  | nil => exact h
  | cons w writes ih =>
    have hwrite : ∀ value, (store.setById w.1 w.2.value).getById id = some value →
        ∃ o ∈ Function.update origin w.1 (some w.2) id, o.value = value := by
      intro value hv
      obtain ⟨rfl, rfl⟩ | ⟨hid, hv⟩ := ValueStore.getById_setById_eq_some.mp hv
      · exact ⟨w.2, Function.update_self _ _ _, rfl⟩
      · rw [Function.update_of_ne hid]
        exact h value hv
    exact ih hwrite

theorem Recorded.apply {t : Traced V} (h : t.Recorded) (he : t.Erased) (c : Call V) :
    (t.apply c).Recorded := by
  intro id value hv
  by_cases hk : HasKind (t.session.apply c).engine.graph id .compute
  · rw [session_apply]
    exact Or.inl hk
  · refine Or.inr ?_
    rw [session_apply] at hv
    cases hc : c.cycle with
    | none =>
      simp only [Traced.apply, hc]
      rw [(Call.leads_apply t.session hc).getById id hk] at hv
      exact h.step hk hv
    | some p =>
      obtain ⟨o, parallel⟩ := p
      have hframe := sameFrame_runCycleImpl o parallel (c.pruned t.session)
      rw [Call.engine_apply_cycle t.session hc] at hv hk
      have hk' : ¬ HasKind (c.pruned t.session).graph id .compute := fun hk' =>
        hk ((HasKind.congr hframe.entries id _).mpr hk')
      have hreceived := getById_of_runCycleImpl hk' hv
      have hresults : (c.pruned t.session).asyncManager.resultRx =
          t.manager.resultRx.map fun result => (result.1, result.2.2) := by
        rw [(Call.shrinks_pruned t.session c).asyncManager]
        exact AsyncManager.Maps.resultRx he
      rw [store_received, hresults] at hreceived
      simp only [Traced.apply, hc, (foldl_spawn _ _).2.2]
      refine recorded_receive _ (fun value hv => h.step ?_ hv) value ?_
      · rw [Call.engine_apply_cycle t.session hc]
        exact hk
      · rw [← hreceived, List.map_append, List.map_map, List.map_map]
        exact congrArg (fun msgs => (Engine.receive _ (msgs ++ _)).getById id) (List.map_id _)

theorem Recorded.init : (init : Traced V).Recorded := fun id _ h =>
  absurd (h.symm.trans (ValueStore.getById_new id)) (by simp)

/-- **In every run the stored values are those on record.** So a statement about the record is one
about the store, compute nodes apart, whose values are nobody's leftovers. -/
theorem recorded_run (calls : List (Call V)) : (Runs.run apply init calls).Recorded :=
  (Runs.invariant_of_step (I := fun t : Traced V => t.Recorded ∧ t.Erased)
    (fun _ c h => ⟨h.1.apply h.2 c, h.2.apply c⟩) ⟨.init, .new⟩).1

/-! ## The invariant -/

variable {t : Traced V} {c : Call V}

/-- What the async manager has of a registered node is of its present life: the futures, and, for
an async node, what it has recorded. The invariant; ids that are not registered may have anything
left. -/
structure Apart (t : Traced V) : Prop where
  futures : t.manager.Holds fun id future => id ∈ t.entries.keys → future.1 = t.life id
  profile : ∀ id entry, t.entries.get id = some entry → entry.kind = .asyncCompute →
    ∀ profile ∈ t.manager.profileOf id, profile = entry.nodeImpl.profile
  untouched : t.Untouched

theorem Apart.init : (init : Traced V).Apart where
  futures := .new
  profile id _ h := absurd (h.symm.trans (FinMap.get_empty id)) (by simp)
  untouched :=
    ⟨fun id _ life h => absurd h (by simp [Traced.init]), fun _ h => absurd h List.not_mem_nil⟩

/-- A node that was there and stays keeps its life; one that is new begins it clean. -/
theorem life_step (hf : t.Fresh c) {id : NodeId} (hid : id ∈ (t.step c).entries.keys) :
    (id ∈ t.entries.keys ∧ (t.step c).life id = t.life id ∧ (t.step c).origin id = t.origin id) ∨
      ∃ desc, c.installs t.session id = some desc ∧ t.Clean c id desc := by
  obtain ⟨entry, hentry⟩ := FinMap.exists_get_of_mem_keys hid
  obtain ⟨old, hold, hkept, hnew, -⟩ | ⟨desc, hnew, -⟩ := Call.get_entries_apply hentry
  · refine Or.inl ⟨FinMap.mem_keys_of_get hold, ?_, if_neg hkept⟩
    simp only [step, hnew, Option.isSome_none, Bool.false_eq_true, if_false]
  · exact Or.inr ⟨desc, hnew, hf id desc hnew⟩

/-- **Registering and removing keeps lives apart**: a node that begins a life finds no future of an
earlier one. A removal only takes ids out of what is spoken of. -/
theorem Apart.step (h : t.Apart) (he : t.Erased) (hf : t.Fresh c) : (t.step c).Apart where
  futures := by
    -- no future of an earlier life is left of a node that begins one
    have hfree : t.manager.Holds fun id _ => ∀ id', (∃ desc, t.Clean c id' desc) → id ≠ id' :=
      .forall fun id' ⟨desc, hclean⟩ =>
        AsyncManager.Maps.holds (Q := fun id _ => id ≠ id') he hclean.futures.holds
    refine (h.futures.and hfree).mono fun id future hq hid => ?_
    obtain ⟨hold, hlife, -⟩ | ⟨desc, -, hclean⟩ := life_step hf hid
    · rw [hlife]
      exact hq.1 hold
    · exact absurd rfl (hq.2 id ⟨desc, hclean⟩)
  profile id entry hentry hk profile hprofile := by
    obtain ⟨old, hold, -, -, hkind, himpl⟩ | ⟨desc, hnew, hkind, himpl⟩ :=
      Call.get_entries_apply hentry
    · rw [himpl]
      exact h.profile id old hold (hkind ▸ hk) profile hprofile
    · rw [himpl]
      refine (hf id desc hnew).profile (hkind ▸ hk) profile ?_
      rw [AsyncManager.Maps.profileOf he]
      exact hprofile
  untouched := by
    refine ⟨fun id hid origin horigin life hlife => ?_, h.untouched.spawns⟩
    obtain ⟨hold, hlife', horigin'⟩ | ⟨desc, -, hclean⟩ := life_step hf hid
    · rw [hlife']
      rw [horigin'] at horigin
      exact h.untouched.values id hold origin horigin life hlife
    · rw [hclean.value origin horigin] at hlife
      exact absurd hlife (by simp)

theorem Apart.manage (h : t.Apart) (c : Call V) :
    Apart { t with manager := c.manage t.manager } := by
  have hsame : ∀ manager, Untouched { t with manager := manager } := fun _ =>
    ⟨h.untouched.values, h.untouched.spawns⟩
  cases c with
  | concurrencyGroup n => exact ⟨h.futures.createGroup n, h.profile, hsame _⟩
  | interpose => exact ⟨h.futures.setNotifier, h.profile, hsame _⟩
  | complete task =>
    refine ⟨h.futures.complete task, fun id entry hentry hk profile hprofile => ?_, hsame _⟩
    refine h.profile id entry hentry hk profile ?_
    rw [← AsyncManager.profileOf_congr (AsyncManager.policyOf_complete t.manager task)
      (AsyncManager.groupIdOf_complete t.manager task)]
    exact hprofile
  | graph | register | merge | dropHandle | dropRemote | remove | deactivateNode | activateSink
  | setErrorStrategy | send | update | forward | runCycle | runCycleParallel => exact h

theorem forall_write {P : NodeId → Origin V → Prop} {writes : List (NodeId × Origin V)}
    (hw : ∀ w ∈ writes, P w.1 w.2) {origin : NodeId → Option (Origin V)}
    (h : ∀ id, ∀ o ∈ origin id, P id o) (id : NodeId) : ∀ o ∈ write origin writes id, P id o := by
  induction writes generalizing origin with
  | nil => exact h id
  | cons w writes ih =>
    refine ih (fun w' hw' => hw w' (List.mem_cons_of_mem _ hw')) fun id' => ?_
    show ∀ o ∈ Function.update origin w.1 (some w.2) id', P id' o
    by_cases hid : id' = w.1
    · rw [hid, Function.update_self]
      intro o ho
      rw [← Option.some.inj ho]
      exact hw w List.mem_cons_self
    · rw [Function.update_of_ne hid]
      exact h id'

/-- **What the drains store is of the present life**, as the futures are. -/
theorem Apart.receive (h : t.Apart) (sourceRx : List (NodeId × V)) :
    (t.receive sourceRx).Apart where
  futures := h.futures.drainResults
  profile id entry hentry hk profile hprofile := by
    refine h.profile id entry hentry hk profile ?_
    have hsame := AsyncManager.SameProfile.drainResults t.manager
    rw [← show _ = t.manager.profileOf id from
      AsyncManager.profileOf_congr hsame.policyOf hsame.groupIdOf id]
    exact hprofile
  untouched := by
    refine ⟨fun id hid origin horigin => ?_, h.untouched.spawns⟩
    refine forall_write (P := fun id origin => id ∈ t.entries.keys →
      ∀ life ∈ origin.life, life = t.life id) (fun w hw => ?_)
      (fun id o ho hid => h.untouched.values id hid o ho) id origin horigin hid
    rcases List.mem_append.mp hw with hw | hw
    · obtain ⟨msg, -, rfl⟩ := List.mem_map.mp hw
      exact fun _ life hlife => absurd hlife (by simp)
    · obtain ⟨result, hresult, rfl⟩ := List.mem_map.mp hw
      intro hid' life hlife
      rw [← Option.some.inj hlife]
      exact h.futures.results result hresult hid'

/-- **A spawn applies what the node is registered with**: it is recorded, or nothing is. -/
theorem Apart.spawn (h : t.Apart) {s : AsyncSpawn V} (hs : t.session.engine.SpawnOf s) :
    (t.spawn s).Apart := by
  obtain ⟨entry, -, hentry, hk, -, hpolicy, hgroup⟩ := hs
  have happlied : (t.manager.profileOf s.nodeId).getD (s.policy, s.groupId) =
      entry.nodeImpl.profile := by
    cases hp : t.manager.profileOf s.nodeId with
    | none => rw [Option.getD_none, hpolicy, hgroup]; rfl
    | some profile => exact h.profile s.nodeId entry hentry hk profile hp
  refine ⟨h.futures.spawn (fun _ => rfl) s.policy s.groupId, ?_, h.untouched.values, ?_⟩
  · intro id entry' hentry' hk' profile hprofile
    simp only [Traced.spawn, AsyncManager.profileOf_spawn, happlied] at hprofile
    split at hprofile
    · next hid =>
      obtain rfl := Option.some.inj (hentry.symm.trans (hid ▸ hentry'))
      exact (Option.some.inj hprofile).symm
    · exact h.profile id entry' hentry' hk' profile hprofile
  · intro r hr
    rcases List.mem_append.mp hr with hr | hr
    · exact h.untouched.spawns r hr
    · rw [List.mem_singleton.mp hr]
      simp only [AsyncManager.profile_stateOr, happlied]
      rw [show t.entries.get s.nodeId = some entry from hentry]
      rfl

theorem Apart.foldl_spawn {spawns : List (AsyncSpawn V)} (h : t.Apart)
    (hs : ∀ s ∈ spawns, t.session.engine.SpawnOf s) : (spawns.foldl Traced.spawn t).Apart := by
  induction spawns generalizing t with
  | nil => exact h
  | cons s spawns ih =>
    exact ih (h.spawn (hs s List.mem_cons_self)) fun s' hs' => hs s' (List.mem_cons_of_mem _ hs')

theorem Apart.apply (h : t.Apart) (he : t.Erased) (hf : t.Fresh c) : (t.apply c).Apart := by
  have hstep := h.step he hf
  unfold Traced.apply
  split
  · exact hstep.manage c
  · next o parallel hc =>
    refine (hstep.receive _).foldl_spawn fun s hs => ?_
    have hentries : (t.session.apply c).engine.graph.entries =
        (c.pruned t.session).graph.entries := by
      rw [Call.entries_apply, (Call.pruned_of_cycle t.session hc).2]
      rfl
    exact (SpawnOf.congr hentries).mpr (mem_spawnsOf_received hs)

end Traced

end ReactiveGraph
