import Mathlib.Data.Set.List
import ReactiveGraph.Proof.GlitchFree
import ReactiveGraph.Proof.TypedRefs

/-!
# What callbacks are called with

A node finds values of any type at its dependencies and downcasts each to the type its function
takes there. Where a downcast fails, the function is not called and nothing is said: a compute node
gives no result, a sink returns. The references that were passed to the builder promise the types,
but they promise them of the values that references of other builder calls lead to, written by
whichever executor, an activation or a drain. So this is about every store that a callback is ever
called with, also those in the middle of a cycle (`Hears`).

**Which stores these are is told by the log.** An `Effect` has what its node found at its
dependencies when it was called, so a statement about all calls is one about the log, and the
invariant is that every entry was made for a registered node in a store with the property
(`Effect.Heard`). Sequentially the store grows from node to node, in parallel it is the one that the
wave before has left, and async nodes see the one that the scheduler has left; one lemma for each,
and `Respects.heard_runCycleImpl` for the cycle.

**Nothing is assumed about the values themselves.** The theorem is for runs of typed calls: keys do
not collide, a scope and a key have one output type, values are sent through references with their
type, and what is passed to a builder is a reference that a builder returned. Then whatever a node
finds at its dependencies has the types its function takes, and it is called exactly when there is
something at each of them.
-/

namespace ReactiveGraph

open Engine

/-! ## Calls -/

section Calls

variable {V : Type*}

/-- The kind of node that the call is made to. Each kind has one callback, and one entry of the log
for it. -/
def Effect.kind : Effect V → NodeKind
  | .activated _ => .source
  | .computed .. => .compute
  | .emitted .. => .sink
  | .triggered .. => .asyncCompute

/-- How often the function was tried. Only a compute node under `Retry` is tried again, and only
when it gives nothing. -/
def Effect.tries : Effect V → ℕ
  | .computed _ _ calls => calls
  | _ => 1

def NodeEntry.descriptor (id : NodeId) (entry : NodeEntry V) : NodeDescriptor V :=
  ⟨id, entry.kind, entry.deps, entry.nodeImpl⟩

/-- The call is made to a node that was registered so, in that store. An activation callback looks
at nothing. -/
structure Effect.IsCall (effect : Effect V) (desc : NodeDescriptor V) (store : ValueStore V) :
    Prop where
  nodeId : effect.nodeId = desc.id
  kind : effect.kind = desc.kind
  reads : effect.kind ≠ .source → effect.reads = store.reads desc.deps
  again : 1 < effect.tries → desc.nodeImpl.compute desc.deps store = none

/-- The call was made to a node with `P`, in a store with `Q`. Neither is in the log itself, so this
says that there were such. -/
def Effect.Heard (P : NodeDescriptor V → Prop) (Q : ValueStore V → Prop) (effect : Effect V) :
    Prop := ∃ desc store, P desc ∧ Q store ∧ effect.IsCall desc store

theorem Effect.Heard.mono {P P' : NodeDescriptor V → Prop} {Q Q' : ValueStore V → Prop}
    (hP : ∀ desc, P desc → P' desc) (hQ : ∀ store, Q store → Q' store) {effect : Effect V}
    (h : effect.Heard P Q) : effect.Heard P' Q' := by
  obtain ⟨desc, store, hdesc, hstore, hcall⟩ := h
  exact ⟨desc, store, hP desc hdesc, hQ store hstore, hcall⟩

/-- What is found is tried once, however many attempts there may be. -/
theorem snd_computeRetrying_of_some (result : V) (max fuel attempts : ℕ) :
    (computeRetrying (some result) max (fuel + 1) attempts).2 = attempts + 1 := rfl

namespace Engine

variable {e e' : Engine V} {P : NodeDescriptor V → Prop} {Q : ValueStore V → Prop}

/-- The nodes that are registered have `P`, as descriptors: that is how they were registered. -/
def Registers (P : NodeDescriptor V → Prop) (entries : FinMap NodeId (NodeEntry V)) : Prop :=
  ∀ id entry, entries.get id = some entry → P (entry.descriptor id)

theorem Registers.shrinks (h : Registers P e.graph.entries) (hs : Shrinks e e') :
    Registers P e'.graph.entries := by
  intro id entry' hentry'
  obtain ⟨entry, hentry, hkind, hdeps, himpl⟩ := hs.entries id entry' hentry'
  rw [NodeEntry.descriptor, hkind, hdeps, himpl]
  exact h id entry hentry

theorem Registers.registerAll (h : Registers P e.graph.entries) {descs : List (NodeDescriptor V)}
    (hd : ∀ desc ∈ descs, P desc) : Registers P (e.registerAll descs).graph.entries := by
  intro id entry hentry
  cases hold : e.graph.entries.get id with
  | some old =>
    obtain rfl := Option.some.inj ((registerAll_of_get hold descs).symm.trans hentry)
    exact h id old hold
  | none =>
    obtain ⟨desc, hdesc, rfl, hkind, hdeps, himpl⟩ := registerAll_of_none hold hentry
    rw [NodeEntry.descriptor, hkind, hdeps, himpl]
    exact hd desc hdesc

theorem calls_of_compute {id : NodeId} {entry : NodeEntry V} {store : ValueStore V}
    (h : 1 < e.calls id entry store) : entry.nodeImpl.compute entry.deps store = none := by
  unfold calls at h
  split at h
  · cases hresult : entry.nodeImpl.compute entry.deps store with
    | none => rfl
    | some result =>
      rw [hresult, snd_computeRetrying_of_some] at h
      exact absurd h (by simp)
  · exact absurd h (by simp)

theorem heard_nodeEffects (h : Registers P e.graph.entries) {id : NodeId} {store : ValueStore V}
    (hs : Q store) : ∀ effect ∈ e.nodeEffects id store, effect.Heard P Q := by
  intro effect heffect
  unfold nodeEffects at heffect
  split at heffect
  · next entry hentry =>
    split at heffect
    · next hkind =>
      obtain rfl := List.mem_singleton.mp heffect
      exact ⟨_, store, h id entry hentry, hs, rfl, hkind.symm, fun _ => rfl, calls_of_compute⟩
    · next hkind =>
      obtain rfl := List.mem_singleton.mp heffect
      exact ⟨_, store, h id entry hentry, hs, rfl, hkind.symm, fun _ => rfl,
        fun hlt => absurd hlt (lt_irrefl 1)⟩
    · next hkind =>
      obtain rfl := List.mem_singleton.mp heffect
      exact ⟨_, store, h id entry hentry, hs, rfl, hkind.symm, fun _ => rfl,
        fun hlt => absurd hlt (lt_irrefl 1)⟩
    · exact absurd heffect List.not_mem_nil
  · exact absurd heffect List.not_mem_nil

/-- A node on the way finds a store that only registered nodes have written in, each after the one
before. -/
theorem Respects.heard_effectsAlong (h : Respects e.graph.entries Q)
    (hP : Registers P e.graph.entries) {l : List NodeId} {store : ValueStore V} (hs : Q store) :
    ∀ effect ∈ e.effectsAlong l store, effect.Heard P Q := by
  intro effect heffect
  obtain ⟨a, k, b, rfl, hk⟩ := mem_effectsAlong heffect
  exact heard_nodeEffects hP (h.storeAfter a hs) effect hk

/-- All nodes of a wave find the store that the wave before has left. By induction on the levels,
with the store and the log so far. -/
theorem Respects.heard_executeParallel {entries : FinMap NodeId (NodeEntry V)}
    (h : Respects entries Q) (hP : Registers P entries) (walks : ℕ → IterOrder) (t : Topology)
    (sorted : List NodeId) (dirty : Finset NodeId) {store : ValueStore V} (hs : Q store) :
    ∀ effect ∈ (Scheduler.executeParallel walks entries store t sorted dirty).2,
      effect.Heard P Q := by
  -- A node in a wave finds the store of the wave, whichever nodes run beside it.
  have hsingle : ∀ (store : ValueStore V) id, Q store →
      ∀ effect ∈ (Scheduler.executeSingle entries store id).2, effect.Heard P Q := by
    intro store id hs effect heffect
    unfold Scheduler.executeSingle at heffect
    split at heffect
    · exact absurd heffect List.not_mem_nil
    · next entry hentry =>
      split at heffect
      · next hkind =>
        obtain rfl := List.mem_singleton.mp heffect
        exact ⟨_, store, hP id entry hentry, hs, rfl, hkind.symm, fun _ => rfl,
          fun hlt => absurd hlt (lt_irrefl 1)⟩
      · next hkind =>
        obtain rfl := List.mem_singleton.mp heffect
        exact ⟨_, store, hP id entry hentry, hs, rfl, hkind.symm, fun _ => rfl,
          fun hlt => absurd hlt (lt_irrefl 1)⟩
      · exact absurd heffect List.not_mem_nil
  -- Wave by wave: the writes of a wave keep the property, and its calls are added.
  have hloop : ∀ (n : ℕ) (st : Scheduler.WaveState V), Q st.store →
      (∀ effect ∈ st.effects, effect.Heard P Q) →
        ∀ effect ∈ (Scheduler.loop walks entries t n st).effects, effect.Heard P Q := by
    intro n
    induction n with
    | zero => exact fun st _ hst => hst
    | succ n ih =>
      intro st hs hst
      rw [Scheduler.loop]
      split
      · exact hst
      · split
        · exact hst
        · refine ih _ (h.wave t _ hs) fun effect heffect => ?_
          rw [Scheduler.effects_wave] at heffect
          rcases List.mem_append.mp heffect with heffect | heffect
          · exact hst effect heffect
          · obtain ⟨id, -, heffect⟩ := List.mem_flatMap.mp heffect
            exact hsingle st.store id hs effect heffect
  exact hloop sorted.length _ hs fun effect heffect => absurd heffect List.not_mem_nil

/-- The async nodes are triggered in the store that the scheduler has left. -/
theorem heard_collectSpawns (l : List NodeId) (p : Engine V × List (AsyncSpawn V))
    (hP : Registers P p.1.graph.entries) (hs : Q p.1.graph.valueStore)
    (h : ∀ effect ∈ p.1.effects, effect.Heard P Q) :
    ∀ effect ∈ (l.foldl collectSpawns p).1.effects, effect.Heard P Q := by
  induction l generalizing p with
  | nil => exact h
  | cons id l ih =>
    obtain ⟨hframe, hstore⟩ := sameFrame_collectSpawns [id] p
    refine ih (collectSpawns p id) (hframe.entries.symm ▸ hP) (hstore.symm ▸ hs) ?_
    unfold collectSpawns
    split
    · exact h
    · next entry hentry =>
      split
      · next hkind =>
        -- triggering writes nothing, so every async node finds the same store
        have hone : Effect.Heard P Q (.triggered id (p.1.graph.valueStore.reads entry.deps)) :=
          ⟨_, p.1.graph.valueStore, hP id entry hentry, hs, rfl, hkind.symm, fun _ => rfl,
            fun hlt => absurd hlt (lt_irrefl 1)⟩
        have heffects : (p.1.trigger id entry).1.effects =
            p.1.effects ++ [.triggered id (p.1.graph.valueStore.reads entry.deps)] := by
          simp only [trigger]
          split <;> rfl
        intro effect heffect
        rw [heffects] at heffect
        rcases List.mem_append.mp heffect with heffect | heffect
        · exact h effect heffect
        · exact List.mem_singleton.mp heffect ▸ hone
      · exact h

/-- **The rule for the calls of a cycle**, whichever executor runs: what survives the writes of
registered nodes is true of every store that a callback is called with. A property of the store that
the received values have and that every node's write keeps is given once, and this is about all the
calls. -/
theorem Respects.heard_runCycleImpl (h : Respects e.graph.entries Q)
    (hP : Registers P e.graph.entries) (o : CycleOrder) (parallel : Bool)
    (hs : Q e.received.graph.valueStore) (he : ∀ effect ∈ e.effects, effect.Heard P Q) :
    ∀ effect ∈ (Engine.runCycleImpl o parallel e).effects, effect.Heard P Q := by
  have hentries : e.received.graph.entries = e.graph.entries := (sameFrame_received e).entries
  cases parallel with
  | false =>
    have hr : Respects e.received.graph.entries Q := hentries.symm ▸ h
    have hPr : Registers P e.received.graph.entries := hentries.symm ▸ hP
    intro effect heffect
    rw [(runCycleImpl_sequential o e).2] at heffect
    rcases List.mem_append.mp heffect with heffect | heffect
    · exact he effect heffect
    · exact hr.heard_effectsAlong hPr hs effect heffect
  | true =>
    rw [runCycleImpl_eq]
    split
    · exact he
    · rw [(propagate_parallel o e.received e.updated).2, executeParallelWithAsync_eq]
      refine heard_collectSpawns _ _ (hentries.symm ▸ hP) ?_ fun effect heffect => ?_
      · exact (hentries.symm ▸ h : Respects e.received.graph.entries Q).executeParallel _ _ _ _ hs
      · rcases List.mem_append.mp heffect with heffect | heffect
        · exact he effect heffect
        · exact (hentries.symm ▸ h : Respects e.received.graph.entries Q).heard_executeParallel
            (hentries.symm ▸ hP) _ _ _ _ hs effect heffect

end Engine

end Calls

/-! ## Runs -/

section Runs

variable {V : Type*} {P : NodeDescriptor V → Prop} {Q : NodeId → V → Prop}

/-- Every value in the store satisfies `Q`, with its node: the store's part of `Carries`. -/
def ValueStore.All (Q : NodeId → V → Prop) (store : ValueStore V) : Prop :=
  ∀ id value, store.getById id = some value → Q id value

namespace Engine

variable {e e' : Engine V}

/-- Nodes with `P` are registered, and they have been called in stores with `Q`, in all the calls
there were since the engine was made. -/
structure Hears (P : NodeDescriptor V → Prop) (Q : NodeId → V → Prop) (e : Engine V) : Prop where
  registers : Registers P e.graph.entries
  heard : ∀ effect ∈ e.effects, effect.Heard P (ValueStore.All Q)

namespace Hears

theorem new : Hears P Q (Engine.new : Engine V) where
  registers _ _ h := by simp [Engine.new, Graph.new] at h
  heard _ h := absurd h List.not_mem_nil

theorem mono {P' : NodeDescriptor V → Prop} {Q' : NodeId → V → Prop} (h : Hears P Q e)
    (hP : ∀ desc, P desc → P' desc) (hQ : ∀ id value, Q id value → Q' id value) :
    Hears P' Q' e where
  registers id entry hentry := hP _ (h.registers id entry hentry)
  heard effect heffect := (h.heard effect heffect).mono hP
    fun _ hs id value hv => hQ id value (hs id value hv)

theorem congr (h : Hears P Q e) (hentries : e'.graph.entries = e.graph.entries)
    (heffects : e'.effects = e.effects) : Hears P Q e' where
  registers := hentries.symm ▸ h.registers
  heard := heffects.symm ▸ h.heard

theorem shrinks (h : Hears P Q e) (hs : Shrinks e e') : Hears P Q e' :=
  ⟨h.registers.shrinks hs, hs.effects.symm ▸ h.heard⟩

theorem drainPendingRemovals (h : Hears P Q e) : Hears P Q e.drainPendingRemovals :=
  h.shrinks (shrinks_drainPendingRemovals e)

theorem registerAll (h : Hears P Q e) {descs : List (NodeDescriptor V)}
    (hd : ∀ desc ∈ descs, P desc) : Hears P Q (e.registerAll descs) :=
  ⟨h.registers.registerAll hd, h.heard⟩

/-- One more call. -/
theorem record (h : Hears P Q e) {effect : Effect V} (heffect : effect.Heard P (ValueStore.All Q)) :
    Hears P Q (e.record [effect]) := by
  refine ⟨h.registers, fun effect' hmem => ?_⟩
  rcases List.mem_append.mp hmem with hmem | hmem
  · exact h.heard effect' hmem
  · exact List.mem_singleton.mp hmem ▸ heffect

/-- The node is called in the store as it stands. A sink is emitted with what is there, and a
source's callback looks at nothing. -/
theorem finishActivation (h : Hears P Q e) (hs : e.graph.valueStore.All Q) {id : NodeId}
    {entry : NodeEntry V} (hentry : e.graph.entries.get id = some entry) :
    Hears P Q (e.finishActivation id entry.kind) := by
  have hdesc := h.registers id entry hentry
  have hpass : ¬ 1 < 1 := lt_irrefl 1
  cases hkind : entry.kind with
  | source =>
    have hcall : Effect.Heard P (ValueStore.All Q) (.activated id : Effect V) :=
      ⟨_, e.graph.valueStore, hdesc, hs, rfl, hkind.symm, fun hne => absurd rfl hne,
        fun hlt => absurd hlt hpass⟩
    cases hact : entry.nodeImpl.activate id with
    | none =>
      rw [Engine.finishActivation, invokeActivate, hentry, Option.bind_some, hact]
      exact h
    | some values =>
      refine (h.record hcall).congr (entries_invokeActivate e id) ?_
      rw [Engine.finishActivation, invokeActivate, hentry, Option.bind_some, hact]
      rfl
  | compute =>
    simp only [Engine.finishActivation, initialCompute, hentry]
    split
    · have hcall : Effect.Heard P (ValueStore.All Q)
          (.computed id (e.graph.valueStore.reads entry.deps) 1) :=
        ⟨_, e.graph.valueStore, hdesc, hs, rfl, hkind.symm, fun _ => rfl,
          fun hlt => absurd hlt hpass⟩
      split <;> exact (h.record hcall).congr rfl rfl
    · exact h
  | sink => exact h
  | asyncCompute => exact h

theorem activate (h : Hears P Q e) (hc : Carries Q e) (id : NodeId) : Hears P Q (e.activate id) :=
  (activateNode_induction (P := fun e => Hears P Q e ∧ Carries Q e)
    (fun _ _ _ h _ _ => ⟨h.1.congr rfl rfl, h.2.congr rfl rfl⟩)
    (fun _ _ _ h _ hentry => ⟨h.1.finishActivation h.2.store hentry, h.2.finishActivation hentry⟩)
    _ id ⟨h, hc⟩).1.1

theorem activateSinks (h : Hears P Q e) (hc : Carries Q e) (hp : e.pendingRemovals = [])
    (ids : List NodeId) : Hears P Q (ids.foldl activateIfSink e) := by
  induction ids generalizing e with
  | nil => exact h
  | cons id ids ih =>
    rw [List.foldl_cons]
    obtain ⟨-, heq⟩ | ⟨-, heq⟩ := activateIfSink_cases hp id
    · rw [heq]
      exact ih (h.activate hc id) (hc.activate id)
        ((sameRest_activate e id).pendingRemovals.trans hp)
    · rw [heq]
      exact ih h hc hp

theorem runCycleImpl (h : Hears P Q e) (hc : Carries Q e) (o : CycleOrder) (parallel : Bool) :
    Hears P Q (runCycleImpl o parallel e) where
  registers := (sameFrame_runCycleImpl o parallel e).entries.symm ▸ h.registers
  heard := hc.respects.heard_runCycleImpl h.registers o parallel hc.received h.heard

end Hears

end Engine

/-- The nodes that a call asks to register have `P`. -/
def Call.Asks (P : NodeDescriptor V → Prop) : Call V → Prop
  | .register desc => P desc
  | .merge descs => ∀ desc ∈ descs, P desc
  | _ => True

/-- **No callback is called in another store**, whatever the call does: activations and cycles make
entries, and everything else leaves the log alone. -/
theorem Session.hears_apply {s : Session V} (h : Hears P Q s.engine) (hc : Carries Q s.engine)
    {c : Call V} (hP : c.Asks P) (hQ : c.Brings Q) : Hears P Q (s.apply c).engine := by
  have hdrain := h.drainPendingRemovals
  have hcdrain := hc.drainPendingRemovals
  cases c with
  | graph => exact hdrain
  | register desc => exact h.registerAll fun d hd => by rw [List.mem_singleton.mp hd]; exact hP
  | merge descs =>
    have hin : ∀ desc ∈ (SubgraphBuilder.ofList descs).descriptors, desc ∈ descs :=
      fun desc hd => SubgraphBuilder.mem_descriptors_ofList hd
    exact (hdrain.registerAll fun desc hd => hP desc (hin desc hd)).activateSinks
      (hcdrain.registerAll fun desc hd => hQ desc (hin desc hd))
      (pendingRemovals_drainPendingRemovals s.engine) _
  | dropHandle i =>
    simp only [apply]
    split
    · unfold dropHandle
      split <;> exact h.congr rfl rfl
    · exact h
  | dropRemote i =>
    simp only [apply]
    split <;> exact h
  | remove =>
    simp only [apply]
    split
    · next nodeIds _ _ => exact h.shrinks (shrinks_release s.engine nodeIds)
    · exact h
  | deactivateNode id => exact h.shrinks (shrinks_deactivate s.engine id)
  | activateSink id => exact hdrain.activate hcdrain id
  | send id value => exact h.congr (sameNodes_send s.engine id value).entries rfl
  | forward =>
    simp only [apply, forward]
    split <;> exact h.congr rfl rfl
  | runCycle o => exact hdrain.runCycleImpl hcdrain o false
  | runCycleParallel o => exact hdrain.runCycleImpl hcdrain o true
  | _ => exact h.congr rfl rfl

end Runs

/-! ## Typed runs -/

variable {output : NodeType → TypeId} {K V : Type*} [AnyValue V] {hash : K → UInt64}

/-- **Where the types are right, the arguments are what was found**, if something was found at every
dependency. The downcasts go along the two lists, and each succeeds. -/
theorem argsOf_eq_some_iff {refs : List NodeRef} {store : ValueStore V}
    (h : ∀ r ∈ refs, ∀ value, store.getById r.id = some value → AnyValue.typeId value = r.type)
    (args : List V) : argsOf (refs.map NodeRef.type) (store.reads (refs.map NodeRef.id)) = some args ↔
      store.reads (refs.map NodeRef.id) = args.map some := by
  induction refs generalizing args with
  | nil => cases args <;> simp [argsOf, ValueStore.reads]
  | cons r refs ih =>
    have ih' := ih fun r' hr' => h r' (List.mem_cons_of_mem _ hr')
    rw [List.map_cons, List.map_cons, ValueStore.reads, List.map_cons, argsOf_cons]
    constructor
    · intro hargs
      obtain ⟨a, ha, hargs⟩ := Option.bind_eq_some_iff.mp hargs
      obtain ⟨rest, hrest, rfl⟩ := Option.map_eq_some_iff.mp hargs
      obtain ⟨value, hvalue, hdown⟩ := Option.bind_eq_some_iff.mp ha
      rw [AnyValue.downcastRef, if_pos (h r List.mem_cons_self value hvalue)] at hdown
      rw [List.map_cons, hvalue, hdown, ← (ih' rest).mp hrest, ValueStore.reads]
    · intro hreads
      cases args with
      | nil => exact absurd hreads (List.cons_ne_nil _ _)
      | cons a args =>
        obtain ⟨hvalue, hrest⟩ := List.cons.inj hreads
        rw [hvalue, Option.bind_some, AnyValue.downcastRef,
          if_pos (h r List.mem_cons_self a hvalue), Option.bind_some, ← ValueStore.reads,
          (ih' args).mpr hrest, Option.map_some]

namespace Build

/-- What the function passed to the builder is called with when the node finds `reads`, if it is:
the downcasts, one for each reference. -/
def args (b : Build output K V) (reads : List (Option V)) : Option (List V) :=
  argsOf (b.deps.map NodeRef.type) reads

/-- A function gives a result whenever it is called. -/
theorem args_of_compute_eq_none {b : Build output K V} (hk : b.kind = .compute)
    {store : ValueStore V}
    (h : (b.descriptor hash).nodeImpl.compute (b.descriptor hash).deps store = none) :
    b.args (store.reads (b.deps.map NodeRef.id)) = none := by
  have hmap : ∀ {type : TypeId} {deps : List NodeRef} (f : Into V type),
      (extract (deps.map NodeRef.type) (deps.map NodeRef.id) store).map f.val = none →
        argsOf (deps.map NodeRef.type) (store.reads (deps.map NodeRef.id)) = none := by
    intro type deps f hnone
    rw [← extract_eq_argsOf]
    exact Option.map_eq_none_iff.mp hnone
  cases b with
  | closureCompute key type deps f => exact hmap f h
  | compute node key deps f => exact hmap f h
  | closureSource | closureAsyncCompute | closureSink | source | asyncCompute | sink =>
    exact absurd hk (by simp [kind])

/-- The call is one that the builder call makes its function ready for: a call with everything that
was found, if something was found everywhere. The function is not tried again but for want of that. -/
structure Delivers (hash : K → UInt64) (b : Build output K V) (effect : Effect V) : Prop where
  nodeId : (b.nodeRef hash).id = effect.nodeId
  kind : b.kind = effect.kind
  args : ∀ args, b.args effect.reads = some args ↔ effect.reads = args.map some
  again : 1 < effect.tries → none ∈ effect.reads

end Build

/-- A builder takes references that builders have returned, before or afterwards: a client has no
other way to a reference. -/
def KnownRefs (hash : K → UInt64) (built : List (Build output K V)) : Prop :=
  ∀ b ∈ built, ∀ r ∈ b.deps, ∃ b' ∈ built, b'.nodeRef hash = r

namespace TypedSession

/-- Whatever a callback was called for, it got. -/
def Delivers (hash : K → UInt64) (s : TypedSession output K V) : Prop :=
  ∀ effect ∈ s.session.engine.effects, effect.kind ≠ .source →
    ∃ b ∈ s.built, b.Delivers hash effect

/-- What is registered was made by a builder, and was called in stores that keep the promises:
`Hears` at the two properties of a typed session. -/
def Hearing (hash : K → UInt64) (s : TypedSession output K V) : Prop :=
  Hears (fun desc => ∃ b ∈ s.built, b.descriptor hash = desc) (Build.Promised hash s.built)
    s.session.engine

theorem hearing_apply {s : TypedSession output K V} (h : s.Hearing hash) (hs : s.Promising hash)
    {c : TypedCall output K V} (hc : c.Typed hash s) : (s.apply hash c).Hearing hash := by
  have hold : s.built ⊆ (s.apply hash c).built := by
    rw [built_apply]
    exact List.subset_append_left _ _
  have hcarries : Carries (Build.Promised hash (s.apply hash c).built) s.session.engine :=
    Carries.mono hs fun _ _ hv => hv.mono hold
  have hhears : Hears (fun desc => ∃ b ∈ (s.apply hash c).built, b.descriptor hash = desc)
      (Build.Promised hash (s.apply hash c).built) s.session.engine :=
    Hears.mono h (fun desc ⟨b, hb, hdesc⟩ => ⟨b, hold hb, hdesc⟩) fun _ _ hv => hv.mono hold
  have hsent : ∀ (r : NodeRef) (value : V), s.HasSource hash r → AnyValue.typeId value = r.type →
      Build.Promised hash s.built r.id value := by
    intro r value hr htype
    obtain ⟨b, hb, -, rfl⟩ := hr
    exact ⟨b, hb, rfl, htype⟩
  cases c with
  | sketch b => exact hhears
  | build b =>
    have hb : b ∈ s.built ++ [b] := List.mem_append_right _ (List.mem_singleton_self b)
    exact Session.hears_apply hhears hcarries (c := .register (b.descriptor hash)) ⟨b, hb, rfl⟩
      (Build.gives_descriptor hb)
  | merge bs =>
    refine Session.hears_apply hhears hcarries (c := .merge (bs.map (Build.descriptor hash))) ?_ ?_
    · intro desc hdesc
      obtain ⟨b, hb, rfl⟩ := List.mem_map.mp hdesc
      exact ⟨b, List.mem_append_right _ hb, rfl⟩
    · intro desc hdesc
      obtain ⟨b, hb, rfl⟩ := List.mem_map.mp hdesc
      exact Build.gives_descriptor (List.mem_append_right _ hb)
  | send r value =>
    exact Session.hears_apply hhears hcarries (c := .send r.id value) trivial
      (hsent r value hc.1 hc.2)
  | update r value =>
    exact Session.hears_apply hhears hcarries (c := .update r.id value) trivial
      (hsent r value hc.1 hc.2)
  | call c =>
    have hraw : c.isRaw = false := hc
    refine Session.hears_apply hhears hcarries (c := c) ?_ ?_ <;>
    · cases c with
      | register _ | merge _ | send _ _ | update _ _ => exact Bool.noConfusion hraw
      | _ => trivial

/-- A dependency has a value of the type its reference promises. The value has the type of some
builder call with the id, and the reference was returned by another with the same id. -/
theorem typeId_of_promised {built built' : List (Build output K V)} (hsub : built ⊆ built')
    (hhash : NoCollision hash built') (hone : OneType built') {b : Build output K V}
    (hrefs : KnownRefs hash built') (hb : b ∈ built) {store : ValueStore V}
    (hs : store.All (Build.Promised hash built)) :
    ∀ r ∈ b.deps, ∀ value, store.getById r.id = some value → AnyValue.typeId value = r.type := by
  intro r hr value hvalue
  obtain ⟨b', hb', rfl⟩ := hrefs b (hsub hb) r hr
  obtain ⟨b'', hb'', hid, htype⟩ := hs _ value hvalue
  exact htype.trans (hone.of_id hhash (hsub hb'') hb' hid)

/-- **Callbacks that were called in stores that keep the promises were called right.** The entry's
descriptor is that of a builder call, whose references lead to values of their types. -/
theorem Hearing.delivers {s : TypedSession output K V} (h : s.Hearing hash)
    {built : List (Build output K V)} (hsub : s.built ⊆ built) (hhash : NoCollision hash built)
    (hone : OneType built) (hrefs : KnownRefs hash built) : s.Delivers hash := by
  intro effect heffect hkind
  obtain ⟨-, store, ⟨b, hb, rfl⟩, hs, hcall⟩ := Hears.heard h effect heffect
  have hreads : effect.reads = store.reads (b.deps.map NodeRef.id) := hcall.reads hkind
  have hargs : ∀ args, b.args effect.reads = some args ↔ effect.reads = args.map some := by
    rw [hreads]
    exact argsOf_eq_some_iff (typeId_of_promised hsub hhash hone hrefs hb hs)
  refine ⟨b, hb, hcall.nodeId.symm, hcall.kind.symm, hargs, fun hlt => ?_⟩
  -- a second try: a compute node that gave nothing was not called, so a value was missing
  have hcompute : b.kind = .compute := by
    rw [show b.kind = effect.kind from hcall.kind.symm]
    cases effect with
    | computed => rfl
    | activated | emitted | triggered => exact absurd hlt (lt_irrefl 1)
  have hnone : b.args effect.reads = none := by
    rw [hreads]
    exact Build.args_of_compute_eq_none hcompute (hcall.again hlt)
  by_contra hmem
  have hall : effect.reads ∈ Set.range (List.map (some : V → Option V)) := by
    rw [Set.range_list_map]
    intro read hread
    cases read with
    | none => exact absurd hread hmem
    | some value => exact ⟨value, rfl⟩
  obtain ⟨args, hall⟩ := hall
  exact Option.some_ne_none args (((hargs args).mpr hall.symm).symm.trans hnone)

end TypedSession

/-- **Every callback gets its arguments in every run** in which keys do not collide, values are sent
with their types, builder calls with the same scope and key have the same output type and references
are passed to builders by those they were returned to: what a node finds at its dependencies has the
types its function takes, whoever calls it, and the function is called if a value was found at each
of them.

Along the run by `Hearing`, together with `Promising`, which says what the stores hold. The
conditions are on the whole run's builder calls, so they are used at the end, when the log is
read. -/
theorem every_callback_delivered (hash : K → UInt64) (calls : List (TypedCall output K V))
    (hhash : NoCollision hash (calls.flatMap TypedCall.builds))
    (htyped : Runs.AllSteps (TypedSession.apply hash) (fun s c => c.Typed hash s) .init calls)
    (hone : OneType (calls.flatMap TypedCall.builds))
    (hrefs : KnownRefs hash (calls.flatMap TypedCall.builds)) :
    Runs.Always (TypedSession.apply hash) (TypedSession.Delivers hash) .init calls := by
  have hgen : ∀ (calls : List (TypedCall output K V)) (s : TypedSession output K V),
      s.Promising hash → s.Hearing hash → NoCollision hash (s.built ++ calls.flatMap TypedCall.builds) →
        OneType (s.built ++ calls.flatMap TypedCall.builds) →
          KnownRefs hash (s.built ++ calls.flatMap TypedCall.builds) →
            Runs.AllSteps (TypedSession.apply hash) (fun s c => c.Typed hash s) s calls →
              Runs.Always (TypedSession.apply hash) (TypedSession.Delivers hash) s calls := by
    intro calls
    induction calls with
    | nil =>
      intro s _ hs hhash hone hrefs _
      exact hs.delivers (List.subset_append_left _ _) hhash hone hrefs
    | cons c calls ih =>
      intro s hp hs hhash hone hrefs htyped
      refine ⟨hs.delivers (List.subset_append_left _ _) hhash hone hrefs, ?_⟩
      rw [List.flatMap_cons, ← List.append_assoc, ← TypedSession.built_apply hash] at hhash hone hrefs
      exact ih _ (TypedSession.promising_apply hp htyped.1)
        (TypedSession.hearing_apply hs hp htyped.1) hhash hone hrefs htyped.2
  exact hgen calls .init .init Hears.new hhash hone hrefs htyped

instance [DecidableEq K] (hash : K → UInt64) (built : List (Build output K V)) :
    Decidable (KnownRefs hash built) := inferInstanceAs (Decidable (∀ b ∈ built, _))

open Sample in
theorem every_callback_delivered_parityRun :
    Runs.Always (TypedSession.apply UInt64.ofNat) (TypedSession.Delivers UInt64.ofNat) .init
      parityRun :=
  every_callback_delivered UInt64.ofNat parityRun (by decide +kernel) (by decide +kernel)
    (by decide +kernel) (by decide +kernel)

end ReactiveGraph
