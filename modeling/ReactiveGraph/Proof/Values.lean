import ReactiveGraph.Proof.Recompute
import ReactiveGraph.Proof.Session
import ReactiveGraph.Proof.Writes

/-!
# Where values come from

A value is made by an implementation, as a result, by a task or in an activation callback, or it is
sent from outside; from then on the engine only carries it, through the source channel and the
bridge, through the queues and tasks of the async manager, into the store. A property of a node's
values that all implementations give and all senders respect is a property of every value there is,
wherever it is (`Carries`).

**The property speaks of a node and a value.** It says nothing about when a value comes or in what
order, so it survives every operation of the engine, and one step lemma for each is enough. What
implementations give is part of it (`AnyNodeImpl.Gives`): nodes may be registered late, and a node
that is registered must keep the property with whatever it will find in the store.

- `Holds` is the part of the async manager, with one lemma for each of its operations: a future that
  is spawned is afterwards in a task, in a queue or nowhere, and a result is the future of a task.
- `Carries` is the whole of it, with one lemma for each thing that an engine does.
- `Session.carries_apply` is the step of a session: nothing is made that the call does not bring.

Types are the property that this was made for (`Proof/TypedRefs.lean`), and where a callback's
arguments come from is another use (`Proof/Callbacks.lean`).
-/

namespace ReactiveGraph

/-! ## The async manager -/

namespace AsyncManager

variable {F : Type*} {m : AsyncManager F} {Q : NodeId → F → Prop}

/-- Every future the manager has to do with satisfies `Q`, with the node it is for: in a task, as a
result, pending at its node or queued at its group. -/
structure Holds (Q : NodeId → F → Prop) (m : AsyncManager F) : Prop where
  running : ∀ task ∈ m.runtime.running, Q task.nodeId task.future
  results : ∀ result ∈ m.resultRx, Q result.1 result.2
  pending : ∀ id state, m.nodeStates.get id = some state → ∀ future ∈ state.pending, Q id future
  queued : ∀ gid group, m.groups.get gid = some group →
    ∀ work ∈ group.queue, Q work.nodeId work.future

namespace Holds

theorem new : Holds Q (new : AsyncManager F) where
  running _ h := absurd h List.not_mem_nil
  results _ h := absurd h List.not_mem_nil
  pending _ _ h := by simp [AsyncManager.new] at h
  queued _ _ h := by simp [AsyncManager.new] at h

theorem mono {Q' : NodeId → F → Prop} (h : Holds Q m) (hQ : ∀ id f, Q id f → Q' id f) :
    Holds Q' m where
  running task ht := hQ _ _ (h.running task ht)
  results result hr := hQ _ _ (h.results result hr)
  pending id state hs future hf := hQ _ _ (h.pending id state hs future hf)
  queued gid group hg work hw := hQ _ _ (h.queued gid group hg work hw)

theorem setNotifier (h : Holds Q m) : Holds Q m.setNotifier :=
  ⟨h.running, h.results, h.pending, h.queued⟩

theorem setState (h : Holds Q m) {id : NodeId} {state : AsyncNodeState F}
    (hp : ∀ future ∈ state.pending, Q id future) : Holds Q (m.setState id state) := by
  refine ⟨h.running, h.results, fun id' state' hs => ?_, h.queued⟩
  have hget := FinMap.get_insert m.nodeStates id id' state
  rw [show (m.nodeStates.insert id state).get id' = some state' from hs] at hget
  split at hget
  · next heq =>
    rw [heq, Option.some.inj hget]
    exact hp
  · exact h.pending id' state' hget.symm

theorem setGroup (h : Holds Q m) (gid : ℕ) {group : ConcurrencyGroupState F}
    (hq : ∀ work ∈ group.queue, Q work.nodeId work.future) : Holds Q (m.setGroup gid group) := by
  refine ⟨h.running, h.results, h.pending, fun gid' group' hg => ?_⟩
  have hget := FinMap.get_insert m.groups gid gid' group
  rw [show (m.groups.insert gid group).get gid' = some group' from hg] at hget
  split at hget
  · rw [Option.some.inj hget]
    exact hq
  · exact h.queued gid' group' hget.symm

theorem createGroup (h : Holds Q m) (max : ℕ) : Holds Q (m.createGroup max).1 :=
  have h' : Holds Q (m.setGroup m.nextGroupId ⟨max, 0, []⟩) := h.setGroup _ (by simp)
  ⟨h'.running, h'.results, h'.pending, h'.queued⟩

theorem start (h : Holds Q m) {id : NodeId} {future : F} (hf : Q id future) (delay : Option ℕ) :
    Holds Q (m.start id future delay) := by
  have h' : Holds Q { m with runtime := m.runtime.spawn id future delay m.notifier } := by
    refine ⟨fun task ht => ?_, h.results, h.pending, h.queued⟩
    rcases List.mem_append.mp ht with ht | ht
    · exact h.running task ht
    · rw [List.mem_singleton.mp ht]
      exact hf
  unfold AsyncManager.start
  split
  · next state hs => exact h'.setState (h.pending id state hs)
  · exact h'

theorem startWithin (h : Holds Q m) {id : NodeId} {future : F} (hf : Q id future)
    (delay : Option ℕ) : Holds Q (m.startWithin id future delay) := by
  unfold AsyncManager.startWithin
  split
  · next gid group hgroup =>
    have hget : m.groups.get gid = some group := by
      obtain ⟨gid', -, hg⟩ := Option.bind_eq_some_iff.mp hgroup
      obtain ⟨group', hget, heq⟩ := Option.map_eq_some_iff.mp hg
      obtain ⟨rfl, rfl⟩ := Prod.mk.inj heq
      exact hget
    split
    · refine h.setGroup gid fun work hw => ?_
      rcases List.mem_append.mp hw with hw | hw
      · exact h.queued gid group hget work hw
      · rw [List.mem_singleton.mp hw]
        exact hf
    · have h' : Holds Q (m.setGroup gid { group with inFlight := group.inFlight + 1 }) :=
        h.setGroup gid (h.queued gid group hget)
      exact h'.start hf delay
  · exact h.start hf delay

theorem releaseSlot (h : Holds Q m) (gid : ℕ) : Holds Q (m.releaseSlot gid) := by
  unfold AsyncManager.releaseSlot
  split
  · next group hgroup => exact h.setGroup gid (h.queued gid group hgroup)
  · exact h

theorem abort (h : Holds Q m) (handle : TaskId) :
    Holds Q { m with runtime := m.runtime.abort handle } :=
  ⟨fun task ht => h.running task (List.mem_of_mem_filter ht), h.results, h.pending, h.queued⟩

theorem cancelExisting (h : Holds Q m) {id : NodeId} {state : AsyncNodeState F}
    (hp : ∀ future ∈ state.pending, Q id future) : Holds Q (m.cancelExisting id state) := by
  unfold AsyncManager.cancelExisting
  split
  · next handle _ =>
    have h' : Holds Q ({ m with runtime := m.runtime.abort handle }.setState id
        { state with inFlight := none }) := (h.abort handle).setState hp
    simp only
    split
    · exact h'.releaseSlot _
    · exact h'
  · exact h

theorem stateOr (h : Holds Q m) (id : NodeId) (policy : AsyncPolicy) (groupId : Option ℕ) :
    ∀ future ∈ (m.stateOr id policy groupId).pending, Q id future := by
  unfold AsyncManager.stateOr
  cases hs : m.nodeStates.get id with
  | none => exact fun future hf => absurd hf List.not_mem_nil
  | some state => exact h.pending id state hs

theorem spawn (h : Holds Q m) {id : NodeId} {future : F} (hf : Q id future) (policy : AsyncPolicy)
    (groupId : Option ℕ) : Holds Q (m.spawn id future policy groupId) := by
  have hp := h.stateOr id policy groupId
  have h' := h.setState hp
  unfold AsyncManager.spawn
  simp only
  split
  · exact (h'.cancelExisting hp).startWithin hf none
  · split
    · refine h'.setState fun f hmem => ?_
      rcases List.mem_append.mp hmem with hmem | hmem
      · exact hp f hmem
      · rw [List.mem_singleton.mp hmem]
        exact hf
    · exact h'.startWithin hf none
  · exact (h'.cancelExisting hp).startWithin hf _

theorem spawnFromQueue (gid n : ℕ) (h : Holds Q m) : Holds Q (spawnFromQueue gid n m) := by
  induction n generalizing m with
  | zero => exact h
  | succ n ih =>
    rw [AsyncManager.spawnFromQueue]
    split
    · next maxConcurrent inFlight work queue hgroup =>
      have hq := h.queued gid _ hgroup
      split
      · refine ih ((h.setGroup gid fun w hw => ?_).start ?_ none)
        · exact hq w (List.mem_cons_of_mem _ hw)
        · exact hq work List.mem_cons_self
      · exact h
    · exact h

theorem settleGroup (h : Holds Q m) (groupId : Option ℕ) : Holds Q (m.settleGroup groupId) := by
  unfold AsyncManager.settleGroup
  split
  · next gid =>
    unfold trySpawnFromGroupQueue
    split
    · exact (h.releaseSlot gid).spawnFromQueue gid _
    · exact h.releaseSlot gid
  · exact h

theorem processCompletion (h : Holds Q m) (id : NodeId) : Holds Q (m.processCompletion id) := by
  unfold AsyncManager.processCompletion
  split
  · exact h
  · next state hs =>
    have hp := h.pending id state hs
    have hsettle : (∀ future ∈ state.settle.1.pending, Q id future) ∧
        ∀ future, state.settle.2 = some future → Q id future := by
      unfold AsyncNodeState.settle
      split
      · exact ⟨fun future hf => hp future (List.mem_of_mem_tail hf), fun future hf =>
          hp future (List.mem_of_mem_head? hf)⟩
      · exact ⟨hp, fun future hf => absurd hf (by simp)⟩
    have h' := (h.setState hsettle.1).settleGroup state.groupId
    simp only
    split
    · next future hf => exact h'.startWithin (hsettle.2 future hf) none
    · exact h'

theorem drainResults (h : Holds Q m) : Holds Q m.drainResults.1 := by
  have hfold : ∀ (ids : List NodeId) (m' : AsyncManager F), Holds Q m' →
      Holds Q (ids.foldl AsyncManager.processCompletion m') := by
    intro ids
    induction ids with
    | nil => exact fun m' h' => h'
    | cons id ids ih => exact fun m' h' => ih _ (h'.processCompletion id)
  exact hfold _ _ ⟨h.running, fun _ hr => absurd hr List.not_mem_nil, h.pending, h.queued⟩

theorem complete (h : Holds Q m) (id : TaskId) : Holds Q (m.complete id) := by
  unfold AsyncManager.complete
  split
  · next task hfind =>
    refine ⟨fun t ht => h.running t (List.mem_of_mem_filter ht), fun result hr => ?_, h.pending,
      h.queued⟩
    rcases List.mem_append.mp hr with hr | hr
    · exact h.results result hr
    · rw [List.mem_singleton.mp hr]
      exact h.running task (List.mem_of_find?_eq_some hfind)
  · exact h

theorem spawnAll (h : Holds Q m) (spawns : List (AsyncSpawn F))
    (hs : ∀ s ∈ spawns, Q s.nodeId s.future) :
    Holds Q (spawns.foldl (fun m s => m.spawn s.nodeId s.future s.policy s.groupId) m) := by
  induction spawns generalizing m with
  | nil => exact h
  | cons s spawns ih =>
    refine ih (h.spawn (hs s List.mem_cons_self) s.policy s.groupId) fun s' hs' => ?_
    exact hs s' (List.mem_cons_of_mem _ hs')

end Holds

end AsyncManager

/-! ## The engine -/

/-- Whatever the implementation gives for the node `id`, read along `deps`, satisfies `Q`. All
stores are asked for, since nobody knows what the node will find. -/
structure AnyNodeImpl.Gives {V : Type*} (Q : NodeId → V → Prop) (impl : AnyNodeImpl V) (id : NodeId)
    (deps : List NodeId) : Prop where
  activate : ∀ values, impl.activate id = some values → ∀ value ∈ values, Q id value
  compute : ∀ store value, impl.compute deps store = some value → Q id value
  computeAsync : ∀ store value, impl.computeAsync deps store = some value → Q id value

namespace AnyNodeImpl.Gives

variable {V : Type*} {Q : NodeId → V → Prop} {impl : AnyNodeImpl V} {id : NodeId}
  {deps : List NodeId}

/-- A source gives values when it is activated only. -/
theorem of_activate (hcompute : ∀ store, impl.compute deps store = none)
    (hasync : ∀ store, impl.computeAsync deps store = none)
    (h : ∀ values, impl.activate id = some values → ∀ value ∈ values, Q id value) :
    impl.Gives Q id deps := by
  refine ⟨h, fun store value hv => ?_, fun store value hv => ?_⟩
  · exact absurd hv (by simp [hcompute store])
  · exact absurd hv (by simp [hasync store])

/-- A compute node gives what it computes. -/
theorem of_compute (hactivate : impl.activate id = none)
    (hasync : ∀ store, impl.computeAsync deps store = none)
    (h : ∀ store value, impl.compute deps store = some value → Q id value) :
    impl.Gives Q id deps := by
  refine ⟨fun values hv => ?_, h, fun store value hv => ?_⟩
  · exact absurd hv (by simp [hactivate])
  · exact absurd hv (by simp [hasync store])

/-- An async compute node gives what its futures do. -/
theorem of_computeAsync (hactivate : impl.activate id = none)
    (hcompute : ∀ store, impl.compute deps store = none)
    (h : ∀ store value, impl.computeAsync deps store = some value → Q id value) :
    impl.Gives Q id deps := by
  refine ⟨fun values hv => ?_, fun store value hv => ?_, h⟩
  · exact absurd hv (by simp [hactivate])
  · exact absurd hv (by simp [hcompute store])

end AnyNodeImpl.Gives

/-- One more value in the store. -/
theorem ValueStore.forall_setById {V : Type*} {Q : NodeId → V → Prop} {store : ValueStore V}
    (hs : ∀ id value, store.getById id = some value → Q id value) {id : NodeId} {value : V}
    (hq : Q id value) :
    ∀ id' value', (store.setById id value).getById id' = some value' → Q id' value' := by
  intro id' value' hv
  obtain ⟨rfl, rfl⟩ | ⟨-, hv⟩ := getById_setById_eq_some.mp hv
  · exact hq
  · exact hs id' value' hv

/-- One more message in a channel. -/
theorem forall_mem_snoc {V : Type*} {Q : NodeId → V → Prop} {l : List (NodeId × V)}
    (hl : ∀ msg ∈ l, Q msg.1 msg.2) {msg : NodeId × V} (hq : Q msg.1 msg.2) :
    ∀ msg' ∈ l ++ [msg], Q msg'.1 msg'.2 := by
  intro msg' hmsg
  rcases List.mem_append.mp hmsg with hmsg | hmsg
  · exact hl msg' hmsg
  · rw [List.mem_singleton.mp hmsg]
    exact hq

namespace Engine

variable {V : Type*} {e e' : Engine V} {Q : NodeId → V → Prop}

/-- Every value there is, is on its way, or can still be made satisfies `Q`, with its node. The
bridge has values of its own once the loop has been started. -/
structure Carries (Q : NodeId → V → Prop) (e : Engine V) : Prop where
  impls : ∀ id entry, e.graph.entries.get id = some entry → entry.nodeImpl.Gives Q id entry.deps
  store : ∀ id value, e.graph.valueStore.getById id = some value → Q id value
  sourceRx : ∀ msg ∈ e.graph.sourceRx, Q msg.1 msg.2
  bridge : ∀ waiting, e.graph.bridge = some waiting → ∀ msg ∈ waiting, Q msg.1 msg.2
  manager : e.asyncManager.Holds Q

namespace Carries

theorem new : Carries Q (Engine.new : Engine V) where
  impls _ _ h := by simp [Engine.new, Graph.new] at h
  store _ _ h := by simp [Engine.new, Graph.new] at h
  sourceRx _ h := absurd h List.not_mem_nil
  bridge _ h := by simp [Engine.new, Graph.new] at h
  manager := .new

theorem mono {Q' : NodeId → V → Prop} (h : Carries Q e) (hQ : ∀ id v, Q id v → Q' id v) :
    Carries Q' e where
  impls id entry hentry :=
    have hg := h.impls id entry hentry
    ⟨fun values hv value hmem => hQ id value (hg.activate values hv value hmem),
      fun store value hv => hQ id value (hg.compute store value hv),
      fun store value hv => hQ id value (hg.computeAsync store value hv)⟩
  store id value hv := hQ id value (h.store id value hv)
  sourceRx msg hmsg := hQ _ _ (h.sourceRx msg hmsg)
  bridge waiting hw msg hmsg := hQ _ _ (h.bridge waiting hw msg hmsg)
  manager := h.manager.mono hQ

/-- Everything but what is looked at here may change: the effects, the metrics, the topology. -/
theorem congr (h : Carries Q e) (hg : e'.graph = e.graph)
    (hm : e'.asyncManager = e.asyncManager) : Carries Q e' := by
  refine ⟨?_, ?_, ?_, ?_, ?_⟩
  · rw [hg]
    exact h.impls
  · rw [hg]
    exact h.store
  · rw [hg]
    exact h.sourceRx
  · rw [hg]
    exact h.bridge
  · rw [hm]
    exact h.manager

/-- Removals only take values away, and registrations with them. -/
theorem shrinks (h : Carries Q e) (hs : Shrinks e e') : Carries Q e' where
  impls id entry' hentry' := by
    obtain ⟨entry, hentry, -, hdeps, himpl⟩ := hs.entries id entry' hentry'
    rw [hdeps, himpl]
    exact h.impls id entry hentry
  store id value hv := by
    by_cases hr : Removed e e' id
    · rw [hs.store_removed id hr] at hv
      exact absurd hv (by simp)
    · exact h.store id value ((hs.store id hr).symm.trans hv)
  sourceRx := by
    rw [hs.sourceRx]
    exact h.sourceRx
  bridge := by
    rw [hs.bridge]
    exact h.bridge
  manager := by
    rw [hs.asyncManager]
    exact h.manager

theorem drainPendingRemovals (h : Carries Q e) : Carries Q e.drainPendingRemovals :=
  h.shrinks (shrinks_drainPendingRemovals e)

theorem registerAll (h : Carries Q e) {descs : List (NodeDescriptor V)}
    (hd : ∀ desc ∈ descs, desc.nodeImpl.Gives Q desc.id desc.deps) :
    Carries Q (e.registerAll descs) := by
  obtain ⟨hstore, hrx, hbridge⟩ := graph_registerAll e descs
  refine ⟨fun id entry hentry => ?_, by rw [hstore]; exact h.store, by rw [hrx]; exact h.sourceRx,
    by rw [hbridge]; exact h.bridge, h.manager⟩
  cases hold : e.graph.entries.get id with
  | some old =>
    obtain rfl := Option.some.inj ((registerAll_of_get hold descs).symm.trans hentry)
    exact h.impls id old hold
  | none =>
    obtain ⟨desc, hdesc, rfl, -, hdeps, himpl⟩ := registerAll_of_none hold hentry
    rw [hdeps, himpl]
    exact hd desc hdesc

theorem setById (h : Carries Q e) {id : NodeId} {value : V} (hv : Q id value) :
    Carries Q (e.setStore (e.graph.valueStore.setById id value)) :=
  ⟨h.impls, ValueStore.forall_setById h.store hv, h.sourceRx, h.bridge, h.manager⟩

theorem send (h : Carries Q e) {id : NodeId} {value : V} (hv : Q id value) :
    Carries Q (e.send id value) := by
  refine ⟨?_, ?_, ?_, ?_, h.manager⟩
  · rw [(sameNodes_send e id value).entries]
    exact h.impls
  · rw [(sameNodes_send e id value).store]
    exact h.store
  · unfold Engine.send Graph.sendSource
    simp only
    split
    · exact forall_mem_snoc h.sourceRx hv
    · exact h.sourceRx
  · unfold Engine.send Graph.sendSource
    simp only
    split
    · exact h.bridge
    · next waiting hw =>
      intro waiting' heq
      obtain rfl := Option.some.inj heq
      exact forall_mem_snoc (h.bridge waiting hw) hv

theorem sendAll (h : Carries Q e) {id : NodeId} {values : List V}
    (hv : ∀ value ∈ values, Q id value) :
    Carries Q { e with
      graph := values.foldl (fun graph value => graph.sendSource id value) e.graph } := by
  induction values generalizing e with
  | nil => exact h
  | cons value values ih =>
    exact ih (h.send (hv value List.mem_cons_self)) fun v hmem => hv v (List.mem_cons_of_mem _ hmem)

/-- A value gets to the source channel. -/
theorem arrive (h : Carries Q e) {msg : NodeId × V} (hv : Q msg.1 msg.2) :
    Carries Q { e with graph := { e.graph with sourceRx := e.graph.sourceRx ++ [msg] } } :=
  ⟨h.impls, h.store, forall_mem_snoc h.sourceRx hv, h.bridge, h.manager⟩

/-- The values in the bridge channel satisfy `Q`, so those left of them do. -/
theorem setBridge (h : Carries Q e) {waiting : List (NodeId × V)}
    (hw : ∀ msg ∈ waiting, Q msg.1 msg.2) :
    Carries Q { e with graph := { e.graph with bridge := some waiting } } := by
  refine ⟨h.impls, h.store, h.sourceRx, fun waiting' heq => ?_, h.manager⟩
  rw [← Option.some.inj heq]
  exact hw

/-- What a callback sends satisfies `Q`, and so does a first value. A node of another kind does
nothing but become active. -/
theorem finishActivation (h : Carries Q e) {id : NodeId} {entry : NodeEntry V}
    (hentry : e.graph.entries.get id = some entry) :
    Carries Q (e.finishActivation id entry.kind) := by
  have hgives := h.impls id entry hentry
  cases entry.kind with
  | source =>
    simp only [Engine.finishActivation, invokeActivate, hentry, Option.bind_some]
    split
    · next values hvalues => exact (h.sendAll (hgives.activate values hvalues)).congr rfl rfl
    · exact h
  | compute =>
    simp only [Engine.finishActivation, initialCompute, hentry]
    split
    · split
      · next result hresult =>
        exact (h.setById (hgives.compute _ result hresult)).congr rfl rfl
      · exact h.congr rfl rfl
    · exact h
  | sink => exact h
  | asyncCompute => exact h

theorem activate (h : Carries Q e) (id : NodeId) : Carries Q (e.activate id) :=
  (activateNode_induction (P := Carries Q) (fun _ _ _ h _ _ => h.congr rfl rfl)
    (fun _ _ _ h _ hentry => h.finishActivation hentry) _ id h).1

theorem activateSinks (h : Carries Q e) (hp : e.pendingRemovals = []) (ids : List NodeId) :
    Carries Q (ids.foldl activateIfSink e) := by
  induction ids generalizing e with
  | nil => exact h
  | cons id ids ih =>
    rw [List.foldl_cons]
    obtain ⟨-, heq⟩ | ⟨-, heq⟩ := activateIfSink_cases hp id
    · rw [heq]
      exact ih (h.activate id) ((sameRest_activate e id).pendingRemovals.trans hp)
    · rw [heq]
      exact ih h hp

theorem merge (h : Carries Q e) {s : Subgraph V}
    (hd : ∀ desc ∈ s.descriptors, desc.nodeImpl.Gives Q desc.id desc.deps) :
    Carries Q (e.merge s).1 :=
  (h.drainPendingRemovals.registerAll hd).activateSinks (pendingRemovals_drainPendingRemovals e) _

theorem forall_receive {store : ValueStore V} {updates : List (NodeId × V)}
    (hs : ∀ id value, store.getById id = some value → Q id value)
    (hu : ∀ u ∈ updates, Q u.1 u.2) :
    ∀ id value, (receive store updates).getById id = some value → Q id value := by
  induction updates generalizing store with
  | nil => exact hs
  | cons u updates ih =>
    exact ih (ValueStore.forall_setById hs (hu u List.mem_cons_self))
      fun u' hu' => hu u' (List.mem_cons_of_mem _ hu')

theorem received (h : Carries Q e) : ∀ id value,
    e.received.graph.valueStore.getById id = some value → Q id value := by
  rw [store_received]
  refine forall_receive h.store fun u hu => ?_
  rcases List.mem_append.mp hu with hu | hu
  · exact h.sourceRx u hu
  · exact h.manager.results u hu

/-- What nodes write in the store satisfies `Q`, so the property is one that the rule for a cycle's
writes carries through either executor. -/
theorem respects (h : Carries Q e) : Respects e.graph.entries
    fun store => ∀ id value, store.getById id = some value → Q id value := by
  refine ⟨?_, ?_⟩
  · intro store id entry store' value hs hentry _ hvalue
    exact ValueStore.forall_setById hs ((h.impls id entry hentry).compute store' value hvalue)
  · intro store id entry hs _ id' value' hv
    exact hs id' value' (ValueStore.getById_remove_eq_some.mp hv).2

/-- **A cycle carries what it receives and stores what the nodes give.** Sources and results go from
the channels to the store, the executor writes results, and the triggers hand futures to the
manager. -/
theorem runCycleImpl (h : Carries Q e) (o : CycleOrder) (parallel : Bool) :
    Carries Q (runCycleImpl o parallel e) := by
  have hframe := sameFrame_runCycleImpl o parallel e
  obtain ⟨hrx, hm⟩ := channels_runCycleImpl o parallel e
  refine ⟨by rw [hframe.entries]; exact h.impls, ?_, fun msg hmsg => ?_,
    by rw [hframe.bridge]; exact h.bridge, ?_⟩
  · exact h.respects.runCycleImpl o parallel h.received
  · rw [hrx] at hmsg
    exact absurd hmsg List.not_mem_nil
  · rw [hm]
    refine h.manager.drainResults.spawnAll _ fun s hs => ?_
    obtain ⟨entry, store, hentry, -, hfuture⟩ := (mem_spawnsOf_received hs).futureOf
    exact (h.impls s.nodeId entry hentry).computeAsync store s.future hfuture

end Carries

end Engine

open Engine

variable {V : Type*} {Q : NodeId → V → Prop}

/-- Everything the call brings in satisfies `Q`: a value that is sent, or what a node that is
registered will ever give. -/
def Call.Brings (Q : NodeId → V → Prop) : Call V → Prop
  | .register desc => desc.nodeImpl.Gives Q desc.id desc.deps
  | .merge descs => ∀ desc ∈ descs, desc.nodeImpl.Gives Q desc.id desc.deps
  | .send id value | .update id value => Q id value
  | _ => True

/-- **No call makes a value that is not brought in.** One case for each call; removals that were
deferred come first in most of them. -/
theorem Session.carries_apply {s : Session V} (h : Carries Q s.engine) {c : Call V}
    (hc : c.Brings Q) : Carries Q (s.apply c).engine := by
  have hdrain := h.drainPendingRemovals
  cases c with
  | graph => exact hdrain
  | register desc => exact h.registerAll fun d hd => by rw [List.mem_singleton.mp hd]; exact hc
  | merge descs =>
    exact h.merge fun desc hd => hc desc (SubgraphBuilder.mem_descriptors_ofList hd)
  | dropHandle i =>
    simp only [apply]
    split
    · unfold dropHandle
      split <;> exact h.congr rfl rfl
    · exact h
  | dropRemote i =>
    simp only [apply]
    split <;> exact h
  | remove =>
    simp only [apply]
    split
    · next nodeIds _ _ => exact h.shrinks (shrinks_release s.engine nodeIds)
    · exact h
  | deactivateNode id => exact h.shrinks (shrinks_deactivate s.engine id)
  | activateSink id => exact hdrain.activate id
  | setErrorStrategy id strategy => exact h.congr rfl rfl
  | concurrencyGroup n =>
    exact ⟨h.impls, h.store, h.sourceRx, h.bridge, h.manager.createGroup n⟩
  | interpose =>
    -- from now on the source channel is behind the bridge
    have hempty : Carries Q { s.engine with graph := { s.engine.graph with bridge := some [] } } :=
      h.setBridge fun msg hmsg => absurd hmsg List.not_mem_nil
    exact ⟨hempty.impls, hempty.store, hempty.sourceRx, hempty.bridge, h.manager.setNotifier⟩
  | send id value => exact h.send hc
  | update id value =>
    have hmsg : Q (id, value).1 (id, value).2 := hc
    exact h.arrive hmsg
  | forward =>
    simp only [apply, forward]
    split
    · next msg waiting hw =>
      have hbridge := h.bridge _ hw
      exact (h.arrive (hbridge msg List.mem_cons_self)).setBridge fun msg' hmsg =>
        hbridge msg' (List.mem_cons_of_mem _ hmsg)
    · exact h
  | complete task =>
    exact ⟨h.impls, h.store, h.sourceRx, h.bridge, h.manager.complete task⟩
  | runCycle o => exact hdrain.runCycleImpl o false
  | runCycleParallel o => exact hdrain.runCycleImpl o true

end ReactiveGraph
