import ReactiveGraph.Proof.Arrival
import ReactiveGraph.Proof.Current

/-!
# Every interleaving is coherent

The threads interleave, and a cycle does not happen at once: while the loop drains its channels the
bridge sends more, tasks complete between two completions that the loop processes, clients post
commands. What the loop does in the end is still what one `run_cycle` does, of an engine that found
in its channels just what this cycle took out of them. So whenever the loop is not between the first
drain and the last execution of a cycle, the engine is up to date with everything drained so far
(`Current`), in every run and whatever its order of steps.

The clients' part is small. Values go to sources; what is merged is acyclic, has its dependencies,
and looks at nothing else; a handle is not dropped while a node that stays depends on what goes.

**The invariant has the cycle in hand.** In the middle of a cycle the engine is up to date with
nothing: some values are in the store and their dependents have not run. `Coherent` says instead
that the engine *as the cycle found it* was up to date, and what has been drained since. When the
cycle executes, `execute_eq_runCycleImpl` turns the loop's work into one `runCycleImpl` of the
engine that was found, and `Current.runCycleImpl` does the rest. Between cycles nothing is in hand,
and the invariant is `Current` itself (`Coherent.idle`).

**One lemma for each kind of step**: those that leave graph, store and calls alone
(`Coherent.frame`, of which most steps are instances), a command, a drain, an execution, a spawn,
and the moves of the other parties. Which list grows in a step is said by functions of the state and
the move (`gives` here, the others in `Arrival.lean`), so the lists of a run are traces and need no
state of their own.
-/

namespace ReactiveGraph

open Engine

variable {V : Type*}

namespace AsyncManager

variable {m m' : AsyncManager V} {P : NodeId → Prop}

/-- Neither the notifier nor what the tasks owe matters, nor results that are taken out. -/
theorem Owned.congr (h : m.Owned P) (hrunning : m'.runtime.running = m.runtime.running)
    (hnext : m'.runtime.nextTask = m.runtime.nextTask) (hrx : ∀ r ∈ m'.resultRx, r ∈ m.resultRx)
    (hstates : m'.nodeStates = m.nodeStates) (hgroups : m'.groups = m.groups)
    (hgid : m'.nextGroupId = m.nextGroupId) : m'.Owned P := by
  have hid : m'.groupIdOf = m.groupIdOf := by
    funext n
    rw [groupIdOf, groupIdOf, hstates]
  refine ⟨⟨?_, fun r hr => ?_, ?_, ?_, ?_, ?_⟩, fun id => ?_⟩
  · rw [hrunning, hstates]
    exact h.wf.task_known
  · rw [hstates]
    exact h.wf.result_known r (hrx r hr)
  · rw [hgroups, hid]
    exact h.wf.queue_own
  · rw [hstates, hnext]
    exact h.wf.handle_lt
  · rw [hstates, hrunning]
    exact h.wf.handle_own
  · rw [hgroups, hgid]
    exact h.wf.group_lt
  · rw [policyOf, hstates]
    exact h.owner id

theorem Owned.processCompletion (h : m.Owned P) (n : NodeId) : (m.processCompletion n).Owned P :=
  ⟨h.wf.processCompletion n, fun id hid => h.owner id (by
    rwa [(SameProfile.processCompletion m n).policyOf] at hid)⟩

end AsyncManager

/-! ## What a cycle has in hand -/

namespace LoopPc

/-- The nodes a cycle has found source updates for, as far as it has drained them. -/
def updated : LoopPc V → List NodeId
  | .drainingSources updated _ | .drainingResults updated _ _ | .completing _ updated _ _ => updated
  | _ => []

/-- The results it has drained and not yet stored. -/
def results : LoopPc V → List (NodeId × V)
  | .drainingResults _ results _ | .completing _ _ results _ => results
  | _ => []

/-- What callbacks are sending. -/
def outbox : LoopPc V → List (NodeId × V)
  | .sending outbox _ _ _ _ => outbox
  | _ => []

/-- The futures still to be spawned. -/
def spawns : LoopPc V → List (AsyncSpawn V)
  | .spawning spawns _ _ => spawns
  | _ => []

/-- Between the first drain of a cycle and the execution of its nodes. -/
def midCycle : LoopPc V → Bool
  | .drainingSources _ _ | .drainingResults _ _ _ | .completing _ _ _ _ => true
  | _ => false

theorem updated_of_not_midCycle {pc : LoopPc V} (h : pc.midCycle = false) :
    pc.updated = [] ∧ pc.results = [] := by
  cases pc <;> first | exact ⟨rfl, rfl⟩ | exact absurd h (by simp [midCycle])

@[simp] theorem nextPc_parts (shouldShutdown : Bool) :
    (Threads.nextPc shouldShutdown : LoopPc V).updated = [] ∧
      (Threads.nextPc shouldShutdown : LoopPc V).results = [] ∧
      (Threads.nextPc shouldShutdown : LoopPc V).outbox = [] ∧
      (Threads.nextPc shouldShutdown : LoopPc V).spawns = [] := by
  cases shouldShutdown <;> exact ⟨rfl, rfl, rfl, rfl⟩

end LoopPc

/-! ## The clients' part -/

variable (kind : NodeId → NodeKind)

/-- The descriptor has the kind that goes with its id, and looks at nothing but its dependencies.
The kinds are a parameter: with them, ids mean the same before and after a removal. -/
structure NodeDescriptor.Fits (desc : NodeDescriptor V) : Prop where
  kind : desc.kind = kind desc.id
  pure : desc.nodeImpl.Pure desc.deps
  async : desc.nodeImpl.AsyncReadsDeps desc.deps

/-- A command that may be handled by the engine as it is then: a value goes to a source, and the
graph is closed and acyclic after a merge and closed after a removal. -/
def Command.Orderly (e : Engine V) : Command V → Prop
  | .sourceUpdate id _ => kind id = .source
  | .merge subgraph _ => (∀ desc ∈ subgraph.descriptors, desc.Fits kind) ∧
      Closed (e.registerAll subgraph.descriptors).graph ∧
        Dag.Acyclic (Reads (e.registerAll subgraph.descriptors).graph)
  | .remove nodeIds => Closed (e.release nodeIds).graph
  | .asyncComplete | .sourceReady | .shutdown => True

namespace Engine

variable {kind} {e e' : Engine V} {lasts lasts' : NodeId → Prop} {ss rs fs : List (NodeId × V)}

/-- An engine in order, with nodes that fit, none of which depends on itself or on what is not
registered. Orderly commands keep it so, and nothing else touches the graph. -/
structure Proper (kind : NodeId → NodeKind) (e : Engine V) : Prop where
  ok : e.Ok
  fitting : e.Fitting kind
  acyclic : Dag.Acyclic (Reads e.graph)
  closed : Closed e.graph

theorem Proper.congr (h : e.Proper kind) (ht : e'.topology = e.topology)
    (ha : e'.active = e.active) (hr : e'.graph.entries = e.graph.entries)
    (hp : e'.pendingRemovals = e.pendingRemovals) : e'.Proper kind where
  ok := h.ok.congr ht ha hr hp
  fitting := h.fitting.congr hr
  acyclic := by
    rw [reads_congr hr]
    exact h.acyclic
  closed := by
    rw [Closed, hr, depsOf_congr hr]
    exact h.closed

/-- What callbacks send goes to the sources they belong to. -/
theorem sources_activateSinks {e : Engine V} (hp : e.pendingRemovals = []) (hfit : e.Fitting kind)
    (hb : ∀ msg ∈ e.graph.bridge.getD [], kind msg.1 = .source) (ids : List NodeId) :
    ∀ msg ∈ (ids.foldl activateIfSink e).graph.bridge.getD [], kind msg.1 = .source := by
  -- Only a source's callback sends, and under the source's own id.
  have hfinish : ∀ (e : Engine V) (id : NodeId) (entry : NodeEntry V), entry.kind = kind id →
      (∀ msg ∈ e.graph.bridge.getD [], kind msg.1 = .source) →
        ∀ msg ∈ (e.finishActivation id entry.kind).graph.bridge.getD [], kind msg.1 = .source := by
    intro e id entry hkind hb
    cases hk : entry.kind with
    | source =>
      simp only [finishActivation, invokeActivate]
      split
      · refine Graph.foldl_sendSource_induction (n := id)
          (P := fun graph => ∀ msg ∈ graph.bridge.getD [], kind msg.1 = .source)
          (fun graph value h msg hmsg => ?_) _ hb
        unfold Graph.sendSource at hmsg
        split at hmsg
        · next hnone =>
          refine h msg ?_
          rwa [hnone] at hmsg ⊢
        · next waiting hsome =>
          rw [hsome] at h
          rcases List.mem_append.mp hmsg with hmsg | hmsg
          · exact h msg hmsg
          · rw [List.mem_singleton.mp hmsg, ← hkind, hk]
      · exact hb
    | compute =>
      simp only [finishActivation, initialCompute]
      split
      · split
        · split <;> exact hb
        · exact hb
      · exact hb
    | sink => exact hb
    | asyncCompute => exact hb
  induction ids generalizing e with
  | nil => exact hb
  | cons id ids ih =>
    rw [List.foldl_cons]
    obtain ⟨-, heq⟩ | ⟨-, heq⟩ := activateIfSink_cases hp id
    · have hnext : (∀ msg ∈ (e.activate id).graph.bridge.getD [], kind msg.1 = .source) ∧
          (e.activate id).Fitting kind :=
        (activateNode_induction (P := fun e' => (∀ msg ∈ e'.graph.bridge.getD [],
            kind msg.1 = .source) ∧ e'.Fitting kind) (fun _ _ _ h _ _ => h)
          (fun e' i entry h _ hentry => ⟨hfinish e' i entry (h.2 i entry hentry).1 h.1,
            h.2.congr (sameRest_finishActivation e' i entry.kind).entries⟩) _ id ⟨hb, hfit⟩).1
      rw [heq]
      exact ih ((sameRest_activate e id).pendingRemovals.trans hp) hnext.2 hnext.1
    · rw [heq]
      exact ih hp hfit hb

/-- What is registered fits, if the descriptors do. -/
theorem fitting_registerAll {e : Engine V} (h : e.Fitting kind) {descs : List (NodeDescriptor V)}
    (hdescs : ∀ desc ∈ descs, desc.Fits kind) : (e.registerAll descs).Fitting kind := by
  intro id entry hentry
  cases hold : e.graph.entries.get id with
  | some old =>
    obtain rfl := Option.some.inj ((registerAll_of_get hold descs).symm.trans hentry)
    exact h id old hold
  | none =>
    obtain ⟨desc, hdesc, rfl, hkind, hdeps, himpl⟩ := registerAll_of_none hold hentry
    rw [hkind, hdeps, himpl]
    exact ⟨(hdescs desc hdesc).kind, (hdescs desc hdesc).pure, (hdescs desc hdesc).async⟩

theorem fitting_release {e : Engine V} (h : e.Fitting kind) (nodeIds : List NodeId) :
    (e.release nodeIds).Fitting kind := by
  intro id entry' hentry'
  obtain ⟨entry, hentry, hkind, hdeps, himpl⟩ := (shrinks_release e nodeIds).entries id entry' hentry'
  rw [hkind, hdeps, himpl]
  exact h id entry hentry

theorem reads_release {e : Engine V} {nodeIds : List NodeId} {u v : NodeId}
    (h : Reads (e.release nodeIds).graph u v) : Reads e.graph u v := by
  have hreg := mem_keys_of_reads h
  rwa [Reads, depsOf_release hreg] at h

/-- **An orderly command keeps an engine proper.** The conditions on the graph are in the command's
being orderly; what is shown is that the rest comes along. -/
theorem Proper.handle {s : Iteration V} (h : s.engine.Proper kind) {c : Command V}
    (hc : c.Orderly kind s.engine) : (EventLoop.handle s c).engine.Proper kind := by
  cases c with
  | merge subgraph reply =>
    obtain ⟨hfits, hclosed, hac⟩ := hc
    have hok := h.ok.registerAll subgraph.descriptors
    obtain ⟨hg, -, -⟩ := grown_activateSinks subgraph.nodeIds hok.drained
    refine ⟨hok.activateSinks fun k _ _ => supplied_of_closed hclosed k,
      (fitting_registerAll h.fitting hfits).congr hg.entries, ?_, ?_⟩
    · simp only [EventLoop.handle]
      rw [reads_congr hg.entries]
      exact hac
    · simp only [EventLoop.handle]
      rw [Closed, hg.entries, depsOf_congr hg.entries]
      exact hclosed
  | remove nodeIds =>
    refine ⟨h.ok.release fun v _ hreg u hu => hc v hreg u ?_, fitting_release h.fitting nodeIds,
      h.acyclic.mono fun _ _ => reads_release, hc⟩
    rwa [depsOf_release hreg]
  | sourceUpdate id value => exact h.congr rfl rfl rfl rfl
  | asyncComplete | sourceReady | shutdown => exact h

/-- It keeps it up to date, for the nodes that it leaves. -/
theorem Current.handle {s : Iteration V} (h : s.engine.Current kind lasts ss rs fs)
    (hp : s.engine.Proper kind) {c : Command V} (hc : c.Orderly kind s.engine)
    (hl : ∀ v, lasts' v → lasts v ∧ (v ∈ s.engine.graph.entries.keys →
      v ∈ (EventLoop.handle s c).engine.graph.entries.keys)) :
    (EventLoop.handle s c).engine.Current kind lasts' ss rs fs := by
  have hmono := h.mono fun v hv => (hl v hv).1
  cases c with
  | merge subgraph reply =>
    exact (hmono.registerAll hp.ok hp.fitting subgraph.descriptors).activateSinks
      (hp.ok.registerAll subgraph.descriptors) (fitting_registerAll hp.fitting hc.1) hc.2.2
      subgraph.nodeIds
  | remove nodeIds => exact h.release hp.ok hp.fitting hc hl
  | sourceUpdate id value => exact hmono.congr rfl rfl rfl rfl
  | asyncComplete | sourceReady | shutdown => exact hmono

end Engine

namespace Threads

/-- A move that sends to a source, or handles an orderly command, or has nothing to do with either. -/
def Orderly (t : Threads V) : Move V → Prop
  | .send id _ => kind id = .source
  | .loop _ =>
    match t.loop with
    | .processing (command :: _) _ _ => command.Orderly kind t.engine
    | _ => True
  | _ => True

/-- The node stays registered in every step of the run in which it is. It may come late; once there
it does not go. -/
def Lasts (ms : List (Move V)) (v : NodeId) : Prop :=
  Runs.AllSteps apply (fun t m => v ∈ t.engine.graph.entries.keys →
    v ∈ (t.apply m).engine.graph.entries.keys) init ms

/-- The futures a cycle gives out. -/
def gives (t : Threads V) : Move V → List (NodeId × V)
  | .loop o =>
    match t.loop with
    | .completing [] updated results shouldShutdown =>
      futures (t.execute o updated results shouldShutdown).loop.spawns
    | _ => []
  | _ => []

/-- The values on their way to the source channel, but for those in commands. -/
def sending (t : Threads V) : List (NodeId × V) :=
  t.bridgeRx ++ t.bridge.held ++ t.loop.outbox ++ t.engine.graph.sourceRx

/-! ## The invariant -/

/-- The engine as the cycle that is under way found it was up to date. `store` is the store it
found, `msgs` what it has drained into it since, and `ss₀` and `rs₀` are what had been drained
before. -/
structure Coherent (lasts : NodeId → Prop) (ss rs fs : List (NodeId × V)) (t : Threads V) :
    Prop where
  proper : t.engine.Proper kind
  sources : ∀ msg ∈ t.sending, kind msg.1 = .source
  tasks : t.engine.asyncManager.Owned fun id => kind id = .asyncCompute
  results : ∀ r ∈ t.loop.results, kind r.1 = .asyncCompute
  spawns : ∀ s ∈ t.loop.spawns, kind s.nodeId = .asyncCompute
  current : ∃ store ss₀ rs₀ msgs, t.engine.graph.valueStore = receive store msgs ∧
    t.loop.updated = msgs.map Prod.fst ∧ (∀ msg ∈ msgs, kind msg.1 = .source) ∧
      ss = ss₀ ++ msgs ∧ rs = rs₀ ++ t.loop.results ∧
        (t.engine.setStore store).Current kind lasts ss₀ rs₀ fs

variable {kind} {lasts lasts' : NodeId → Prop} {ss rs fs : List (NodeId × V)} {t t' : Threads V}

theorem Coherent.init : (init : Threads V).Coherent kind lasts [] [] [] where
  proper := by
    refine ⟨Ok.congr .new rfl rfl rfl rfl, fun id entry hentry => ?_,
      acyclic_of_rank (fun _ => 0) fun v hv => ?_, fun v hv => ?_⟩
    · exact absurd hentry (by simp [Threads.init, EventLoop.start, Graph.new])
    · exact absurd hv (by simp [Threads.init, EventLoop.start, Graph.new])
    · exact absurd hv (by simp [Threads.init, EventLoop.start, Graph.new])
  sources _ h := absurd h List.not_mem_nil
  tasks := AsyncManager.Owned.new.congr rfl rfl (fun _ hr => hr) rfl rfl rfl
  results _ h := absurd h List.not_mem_nil
  spawns _ h := absurd h List.not_mem_nil
  current := ⟨.new, [], [], [], rfl, rfl, fun _ h => absurd h List.not_mem_nil, rfl, rfl,
    Current.congr .new rfl rfl rfl rfl⟩

theorem Coherent.mono (h : t.Coherent kind lasts ss rs fs) (hl : ∀ v, lasts' v → lasts v) :
    t.Coherent kind lasts' ss rs fs where
  proper := h.proper
  sources := h.sources
  tasks := h.tasks
  results := h.results
  spawns := h.spawns
  current := by
    obtain ⟨store, ss₀, rs₀, msgs, hstore, hupd, hmsgs, hss, hrs, hcurrent⟩ := h.current
    exact ⟨store, ss₀, rs₀, msgs, hstore, hupd, hmsgs, hss, hrs, hcurrent.mono hl⟩

/-! ## Steps that leave the graph alone -/

/-- Nothing happens to the graph, the store or the calls, and the cycle has in hand what it had.
What the other clauses ask for is then a matter of what is in the channels and the manager. -/
theorem Coherent.frame (h : t.Coherent kind lasts ss rs fs) (hf : SameFrame t.engine t'.engine)
    (hstore : t'.engine.graph.valueStore = t.engine.graph.valueStore)
    (heffects : t'.engine.effects = t.engine.effects)
    (hsources : ∀ msg ∈ t'.sending, msg ∈ t.sending ∨ kind msg.1 = .source)
    (htasks : t'.engine.asyncManager.Owned fun id => kind id = .asyncCompute)
    (hupdated : t'.loop.updated = t.loop.updated) (hresults : t'.loop.results = t.loop.results)
    (hspawns : ∀ s ∈ t'.loop.spawns, s ∈ t.loop.spawns) : t'.Coherent kind lasts ss rs fs where
  proper := h.proper.congr hf.topology hf.active hf.entries hf.pendingRemovals
  sources msg hmsg := (hsources msg hmsg).elim (h.sources msg) fun hk => hk
  tasks := htasks
  results r hr := h.results r (hresults ▸ hr)
  spawns s hs := h.spawns s (hspawns s hs)
  current := by
    obtain ⟨store, ss₀, rs₀, msgs, hrx, hupd, hmsgs, hss, hrs, hcurrent⟩ := h.current
    exact ⟨store, ss₀, rs₀, msgs, hstore.trans hrx, hupdated.trans hupd, hmsgs, hss,
      by rw [hresults, hrs], hcurrent.congr hf.entries hf.active rfl heffects⟩

/-- The loop goes on, with the engine as it is. -/
theorem Coherent.goto (h : t.Coherent kind lasts ss rs fs) {pc : LoopPc V}
    {commands : List (Command V)} {replies : List (ℕ × List NodeId)}
    (hupdated : pc.updated = t.loop.updated) (hresults : pc.results = t.loop.results)
    (houtbox : pc.outbox = t.loop.outbox) (hspawns : pc.spawns = t.loop.spawns) :
    Coherent kind lasts ss rs fs
      { t with loop := pc, commands := commands, replies := replies } := by
  refine h.frame (.refl _) rfl rfl (fun msg hmsg => Or.inl ?_) h.tasks hupdated hresults
    fun s hs => by rwa [← hspawns]
  rw [sending] at hmsg ⊢
  rwa [← houtbox]

/-- What is in hand goes when a cycle has been executed; before a cycle there is nothing. Then the
engine found and the engine there are one. -/
theorem Coherent.idle (h : t.Coherent kind lasts ss rs fs) (hu : t.loop.updated = [])
    (hr : t.loop.results = []) : t.engine.Current kind lasts ss rs fs := by
  obtain ⟨store, ss₀, rs₀, msgs, hstore, hupd, -, hss, hrs, hcurrent⟩ := h.current
  obtain rfl : msgs = [] := List.map_eq_nil_iff.mp (hupd.symm.trans hu)
  rw [List.append_nil] at hss
  rw [hr, List.append_nil] at hrs
  rw [hss, hrs]
  exact hcurrent.congr rfl rfl hstore rfl

/-! ## The other parties -/

theorem Coherent.bridgeStep (h : t.Coherent kind lasts ss rs fs) :
    t.bridgeStep.Coherent kind lasts ss rs fs := by
  have hframe : ∀ t' : Threads V, SameFrame t.engine t'.engine →
      t'.engine.graph.valueStore = t.engine.graph.valueStore →
      t'.engine.effects = t.engine.effects → t'.engine.asyncManager = t.engine.asyncManager →
      t'.loop = t.loop → (∀ msg ∈ t'.sending, msg ∈ t.sending) →
        t'.Coherent kind lasts ss rs fs := by
    intro t' hf hstore heffects hm hloop hsending
    exact h.frame hf hstore heffects (fun msg hmsg => Or.inl (hsending msg hmsg))
      (by rw [hm]; exact h.tasks) (by rw [hloop]) (by rw [hloop]) (by rw [hloop]; simp)
  unfold Threads.bridgeStep
  cases hpc : t.bridge with
  | blocked =>
    cases hrx : t.bridgeRx with
    | nil => exact h
    | cons msg bridgeRx =>
      refine hframe _ (.refl _) rfl rfl rfl rfl fun msg' hmsg' => ?_
      simp only [sending, hpc, hrx, BridgePc.held, List.mem_append, List.mem_cons,
        List.not_mem_nil] at hmsg' ⊢
      tauto
  | forwarding msg =>
    refine hframe _ ⟨rfl, rfl, rfl, rfl, rfl, rfl, rfl⟩ rfl rfl rfl rfl fun msg' hmsg' => ?_
    simp only [sending, hpc, BridgePc.held, List.mem_append, List.mem_cons,
      List.not_mem_nil] at hmsg' ⊢
    tauto
  | notifying =>
    refine hframe _ (.refl _) rfl rfl rfl rfl fun msg' hmsg' => ?_
    simpa only [sending, hpc, BridgePc.held] using hmsg'

/-- A task sends, or a task that has sent notifies. -/
theorem Coherent.manager (h : t.Coherent kind lasts ss rs fs) {m : AsyncManager V}
    (hm : m.Owned fun id => kind id = .asyncCompute) {commands : List (Command V)}
    {sent : Multiset (NodeId × V)} : Coherent kind lasts ss rs fs { t with
      engine := { t.engine with asyncManager := m }
      commands := commands
      sent := sent } :=
  h.frame ⟨rfl, rfl, rfl, rfl, rfl, rfl, rfl⟩ rfl rfl (fun _ hmsg => Or.inl hmsg) hm rfl rfl
    fun _ hs => hs

theorem Coherent.notifyStep (h : t.Coherent kind lasts ss rs fs) :
    t.notifyStep.Coherent kind lasts ss rs fs := by
  unfold Threads.notifyStep
  simp only
  split
  · refine h.manager ?_
    exact h.tasks.congr rfl rfl (fun _ hr => hr) rfl rfl rfl
  · exact h

theorem Coherent.send (h : t.Coherent kind lasts ss rs fs) {id : NodeId} (hk : kind id = .source)
    (value : V) : (t.apply (.send id value)).Coherent kind lasts ss rs fs := by
  refine h.frame (.refl _) rfl rfl (fun msg hmsg => ?_) h.tasks rfl rfl fun _ hs => hs
  simp only [sending, Threads.apply, List.mem_append, List.mem_singleton] at hmsg ⊢
  rcases hmsg with (((hmsg | rfl) | hmsg) | hmsg) | hmsg
  · tauto
  · exact Or.inr hk
  · tauto
  · tauto
  · tauto

/-- A client posts a command. -/
theorem Coherent.post (h : t.Coherent kind lasts ss rs fs) (c : Command V)
    {sent : Multiset (NodeId × V)} :
    Coherent kind lasts ss rs fs { t.post c with sent := sent } :=
  h.frame (.refl _) rfl rfl (fun _ hmsg => Or.inl hmsg) h.tasks rfl rfl fun _ hs => hs

/-! ## The loop -/

theorem Coherent.process (h : t.Coherent kind lasts ss rs fs) (hawake : t.Awake) {c : Command V}
    {commands : List (Command V)} {hasUpdates shouldShutdown : Bool}
    (hpc : t.loop = .processing (c :: commands) hasUpdates shouldShutdown)
    (hc : c.Orderly kind t.engine) (hl : ∀ v, lasts' v → lasts v ∧
      (v ∈ t.engine.graph.entries.keys →
        v ∈ (t.process c commands hasUpdates shouldShutdown).engine.graph.entries.keys)) :
    (t.process c commands hasUpdates shouldShutdown).Coherent kind lasts' ss rs fs := by
  obtain ⟨hrx, -, hm, -⟩ := EventLoop.handle_channels ⟨t.engine, [], hasUpdates, shouldShutdown⟩
    (by rw [hawake.bridge]; rfl) c
  have hproper : (EventLoop.handle ⟨t.engine, [], hasUpdates, shouldShutdown⟩ c).engine.Proper
      kind := h.proper.handle hc
  have hcurrent := (h.idle (by rw [hpc]; rfl) (by rw [hpc]; rfl)).handle
    (s := ⟨t.engine, [], hasUpdates, shouldShutdown⟩) h.proper hc hl
  have hold : ∀ msg ∈ t.engine.graph.sourceRx, kind msg.1 = .source :=
    fun msg hmsg => h.sources msg (List.mem_append_right _ hmsg)
  have hvalues : ∀ msg ∈ c.values, kind msg.1 = .source := by
    intro msg hmsg
    cases c with
    | sourceUpdate id value =>
      rw [List.mem_singleton.mp hmsg]
      exact hc
    | merge | remove | asyncComplete | sourceReady | shutdown => exact absurd hmsg List.not_mem_nil
  -- what the callbacks of a merge have sent waits in the bridge, which was empty before
  have houtbox : ∀ msg ∈ (EventLoop.handle ⟨t.engine, [], hasUpdates, shouldShutdown⟩
      c).engine.graph.bridge.getD [], kind msg.1 = .source := by
    have hnone : ∀ msg ∈ t.engine.graph.bridge.getD [], kind msg.1 = .source := by
      rw [hawake.bridge]
      exact fun _ hmsg => absurd hmsg List.not_mem_nil
    cases c with
    | merge subgraph reply =>
      refine sources_activateSinks (h.proper.ok.registerAll _).drained
        (fitting_registerAll h.proper.fitting hc.1) ?_ subgraph.nodeIds
      rwa [(graph_registerAll t.engine subgraph.descriptors).2.2]
    | remove nodeIds =>
      simp only [EventLoop.handle]
      rwa [(shrinks_release t.engine nodeIds).bridge]
    | sourceUpdate | asyncComplete | sourceReady | shutdown => exact hnone
  refine ⟨hproper.congr rfl rfl rfl rfl, fun msg hmsg => ?_, ?_,
    fun _ hr => absurd hr List.not_mem_nil, fun _ hs => absurd hs List.not_mem_nil,
    _, ss, rs, [], rfl, rfl, fun _ hmsg => absurd hmsg List.not_mem_nil, (List.append_nil ss).symm,
    (List.append_nil rs).symm, hcurrent.congr rfl rfl rfl rfl⟩
  · rw [sending, List.mem_append, List.mem_append] at hmsg
    rcases hmsg with (hmsg | hmsg) | hmsg
    · exact h.sources msg (List.mem_append_left _ (List.mem_append_left _ hmsg))
    · exact houtbox msg hmsg
    · rcases List.mem_append.mp (hrx ▸ hmsg) with hmsg | hmsg
      · exact hold msg hmsg
      · exact hvalues msg hmsg
  · have hasync : (t.process c commands hasUpdates shouldShutdown).engine.asyncManager =
        t.engine.asyncManager := hm
    rw [hasync]
    exact h.tasks

/-- The engine as it was before a cycle, which has then taken these values out of its channels. It
need not ever have been: tasks may have completed between the drains. It is an engine of which one
call of `run_cycle` does what the loop has done. -/
def found (e : Engine V) (store : ValueStore V) (msgs results : List (NodeId × V)) : Engine V :=
  { e with
    graph := { e.graph with valueStore := store, sourceRx := msgs }
    asyncManager := { e.asyncManager with resultRx := results } }

/-- **What the loop executes is the cycle of the engine that was found**: the same store, the same
calls, the same futures. The manager is not compared, since it has gone on. -/
theorem execute_eq_runCycleImpl (o : CycleOrder) {store : ValueStore V}
    {msgs : List (NodeId × V)} (hstore : t.engine.graph.valueStore = receive store msgs)
    (results : List (NodeId × V)) (shouldShutdown : Bool) :
    (t.execute o (msgs.map Prod.fst) results shouldShutdown).engine.graph.valueStore =
        (runCycleImpl o false (found t.engine store msgs results)).graph.valueStore ∧
      (t.execute o (msgs.map Prod.fst) results shouldShutdown).engine.effects =
        (runCycleImpl o false (found t.engine store msgs results)).effects ∧
      (t.execute o (msgs.map Prod.fst) results shouldShutdown).loop.spawns =
        (found t.engine store msgs results).received.spawnsOf o false
          (found t.engine store msgs results).updated := by
  have hreceived : (t.engine.setStore (receive t.engine.graph.valueStore results)).graph.valueStore =
      (found t.engine store msgs results).received.graph.valueStore := by
    rw [hstore]
    rfl
  have hframe : SameFrame (found t.engine store msgs results).received
      (t.engine.setStore (receive t.engine.graph.valueStore results)) :=
    ⟨rfl, rfl, rfl, rfl, rfl, rfl, rfl⟩
  obtain ⟨hcycle, heffects⟩ := runCycleImpl_sequential o (found t.engine store msgs results)
  rw [hcycle, heffects]
  unfold Threads.execute
  simp only
  split
  · next hnone =>
    have hsorted := sortedOf_of_empty (o := o) (e := found t.engine store msgs results) hnone
    rw [hsorted.2]
    refine ⟨hreceived, (List.append_nil _).symm, ?_⟩
    rw [spawnsOf_sequential, hsorted.2]
    cases shouldShutdown <;> rfl
  · obtain ⟨hengine, hspawns⟩ := executeSequentialWithAsync_eq
      (t.engine.setStore (receive t.engine.graph.valueStore results))
      ((found t.engine store msgs results).sortedOf o)
    rw [storeAfter, hframe.nodeStore, hframe.along.1, hreceived] at hengine
    rw [hframe.along.2, hreceived] at hspawns
    exact ⟨congrArg (fun e => e.graph.valueStore) hengine, congrArg Engine.effects hengine,
      hspawns.trans (executeSequentialWithAsync_eq _ _).2.symm⟩

/-- What an execution leaves as it is. -/
theorem execute_frame (t : Threads V) (o : CycleOrder) (updated : List NodeId)
    (results : List (NodeId × V)) (shouldShutdown : Bool) :
    SameFrame t.engine (t.execute o updated results shouldShutdown).engine ∧
      SameChannels t.engine (t.execute o updated results shouldShutdown).engine ∧
      (t.execute o updated results shouldShutdown).loop.midCycle = false ∧
      (t.execute o updated results shouldShutdown).sending =
        t.bridgeRx ++ t.bridge.held ++ t.engine.graph.sourceRx := by
  have hstore : SameFrame t.engine
      (t.engine.setStore (receive t.engine.graph.valueStore results)) :=
    ⟨rfl, rfl, rfl, rfl, rfl, rfl, rfl⟩
  unfold Threads.execute
  simp only
  split
  · refine ⟨hstore, ⟨rfl, id, rfl⟩, ?_, ?_⟩
    · cases shouldShutdown <;> rfl
    · simp only [sending, LoopPc.nextPc_parts, List.append_nil, setStore]
  · obtain ⟨⟨hrx, hbridge, hm⟩, -⟩ := sameChannels_execute
      (t.engine.setStore (receive t.engine.graph.valueStore results))
      (t.engine.topology.topoSort o.dirty
        (t.engine.topology.dirtySet o.sources (updated ++ results.map Prod.fst).toFinset))
    refine ⟨?_, ⟨hrx, hbridge, hm⟩, rfl, ?_⟩
    · rw [(executeSequentialWithAsync_eq _ _).1]
      exact hstore.trans (sameFrame_setStore_record _ _ _)
    · show t.bridgeRx ++ t.bridge.held ++ [] ++ _ = _
      rw [List.append_nil]
      exact congrArg (t.bridgeRx ++ t.bridge.held ++ ·) hrx

theorem Coherent.execute (h : t.Coherent kind lasts ss rs fs) (o : CycleOrder)
    {updated : List NodeId} {results : List (NodeId × V)} {shouldShutdown : Bool}
    (hpc : t.loop = .completing [] updated results shouldShutdown) :
    (t.execute o updated results shouldShutdown).Coherent kind lasts ss rs
      (fs ++ futures (t.execute o updated results shouldShutdown).loop.spawns) := by
  obtain ⟨store, ss₀, rs₀, msgs, hstore, hupd, hmsgs, hss, hrs, hcurrent⟩ := h.current
  obtain rfl : updated = msgs.map Prod.fst := by
    rw [← hupd, hpc]
    rfl
  have hresults : ∀ r ∈ results, kind r.1 = .asyncCompute := by
    intro r hr
    exact h.results r (by rw [hpc]; exact hr)
  obtain rfl : rs = rs₀ ++ results := by
    rw [hrs, hpc]
    rfl
  obtain ⟨hvalues, heffects, hspawns⟩ := execute_eq_runCycleImpl o hstore results shouldShutdown
  obtain ⟨hframe, hsame, hmid, hsending⟩ :=
    execute_frame t o (msgs.map Prod.fst) results shouldShutdown
  obtain ⟨hupdated', hresults'⟩ := LoopPc.updated_of_not_midCycle hmid
  have hfound : (found t.engine store msgs results).Proper kind := h.proper.congr rfl rfl rfl rfl
  have hfoundCurrent : (found t.engine store msgs results).Current kind lasts ss₀ rs₀ fs :=
    hcurrent.congr rfl rfl rfl rfl
  -- the cycle is that of an engine that found the drained values in its channels
  have hcycle := hfoundCurrent.runCycleImpl hfound.ok hfound.fitting hfound.acyclic hmsgs hresults o
  have hcycleframe := sameFrame_runCycleImpl o false (found t.engine store msgs results)
  refine ⟨h.proper.congr hframe.topology hframe.active hframe.entries hframe.pendingRemovals,
    fun msg hmsg => ?_, by rw [hsame.asyncManager]; exact h.tasks, fun r hr => ?_, fun s hs => ?_,
    _, ss, rs₀ ++ results, [], rfl, by rw [hupdated']; rfl,
    fun _ hmsg => absurd hmsg List.not_mem_nil, (List.append_nil ss).symm, ?_, ?_⟩
  · rw [hsending] at hmsg
    refine h.sources msg ?_
    rw [sending, hpc]
    exact (List.append_nil (t.bridgeRx ++ t.bridge.held)).symm ▸ hmsg
  · rw [hresults'] at hr
    exact absurd hr List.not_mem_nil
  · rw [hspawns] at hs
    exact hfound.fitting.kind_of (mem_spawnsOf_received hs).futureOf.hasKind
  · rw [hresults', List.append_nil]
  · rw [hspawns, hss]
    exact hcycle.congr (hframe.entries.trans hcycleframe.entries.symm)
      (hframe.active.trans hcycleframe.active.symm) hvalues heffects

/-! ## The steps -/

theorem Coherent.drainSource (h : t.Coherent kind lasts ss rs fs) {updated : List NodeId}
    {shouldShutdown : Bool} (hpc : t.loop = .drainingSources updated shouldShutdown)
    {msg : NodeId × V} {sourceRx : List (NodeId × V)}
    (hrx : t.engine.graph.sourceRx = msg :: sourceRx) {drained : Multiset (NodeId × V)} :
    Coherent kind lasts (ss ++ [msg]) rs fs { t with
      engine :=
        { t.engine with
          graph :=
            { t.engine.graph with
              sourceRx := sourceRx
              valueStore := t.engine.graph.valueStore.setById msg.1 msg.2 } }
      drained := drained
      loop := .drainingSources (updated ++ [msg.1]) shouldShutdown } := by
  obtain ⟨store, ss₀, rs₀, msgs, hstore, hupd, hmsgs, hss, hrs, hcurrent⟩ := h.current
  have hmsg : kind msg.1 = .source := h.sources msg (by simp [sending, hrx])
  refine ⟨h.proper.congr rfl rfl rfl rfl, fun msg' hmsg' => h.sources msg' ?_, h.tasks,
    fun _ hr => absurd hr List.not_mem_nil, fun _ hs => absurd hs List.not_mem_nil,
    store, ss₀, rs₀, msgs ++ [msg], ?_, ?_, fun msg' hmsg' => ?_, ?_, ?_,
    hcurrent.congr rfl rfl rfl rfl⟩
  · simp only [sending, hpc, hrx, LoopPc.outbox, List.mem_append, List.mem_cons] at hmsg' ⊢
    tauto
  · have hsnoc : receive store (msgs ++ [msg]) = (receive store msgs).setById msg.1 msg.2 :=
      List.foldl_append
    rw [hsnoc, ← hstore]
  · rw [List.map_append, ← hupd, hpc]
    rfl
  · rcases List.mem_append.mp hmsg' with hmsg' | hmsg'
    · exact hmsgs msg' hmsg'
    · rwa [List.mem_singleton.mp hmsg']
  · rw [hss, List.append_assoc]
  · rw [hrs, hpc]
    rfl

theorem Coherent.drainResult (h : t.Coherent kind lasts ss rs fs) {updated : List NodeId}
    {results : List (NodeId × V)} {shouldShutdown : Bool}
    (hpc : t.loop = .drainingResults updated results shouldShutdown) {result : NodeId × V}
    {resultRx : List (NodeId × V)} (hrx : t.engine.asyncManager.resultRx = result :: resultRx)
    {drained : Multiset (NodeId × V)} :
    Coherent kind lasts ss (rs ++ [result]) fs { t with
      engine :=
        { t.engine with asyncManager := { t.engine.asyncManager with resultRx := resultRx } }
      drained := drained
      loop := .drainingResults updated (results ++ [result]) shouldShutdown } := by
  obtain ⟨store, ss₀, rs₀, msgs, hstore, hupd, hmsgs, hss, hrs, hcurrent⟩ := h.current
  have hresult : kind result.1 = .asyncCompute := h.tasks.result (by simp [hrx])
  refine ⟨h.proper.congr rfl rfl rfl rfl, fun msg hmsg => h.sources msg ?_,
    h.tasks.congr rfl rfl (fun r hr => ?_) rfl rfl rfl, fun r hr => ?_,
    fun _ hs => absurd hs List.not_mem_nil, store, ss₀, rs₀, msgs, hstore, ?_, hmsgs, hss, ?_,
    hcurrent.congr rfl rfl rfl rfl⟩
  · rw [sending, hpc]
    exact hmsg
  · rw [hrx]
    exact List.mem_cons_of_mem _ hr
  · rcases List.mem_append.mp hr with hr | hr
    · exact h.results r (by rw [hpc]; exact hr)
    · rwa [List.mem_singleton.mp hr]
  · rw [← hupd, hpc]
    rfl
  · rw [hrs, hpc, List.append_assoc]
    rfl

theorem Coherent.loopStep (h : t.Coherent kind lasts ss rs fs) (hawake : t.Awake) (o : CycleOrder)
    (ho : t.Orderly kind (.loop o)) (hl : ∀ v, lasts' v → lasts v ∧
      (v ∈ t.engine.graph.entries.keys → v ∈ (t.loopStep o).engine.graph.entries.keys)) :
    (t.loopStep o).Coherent kind lasts' (ss ++ t.drainsSource (.loop o))
      (rs ++ t.drainsResult (.loop o)) (fs ++ t.gives (.loop o)) := by
  have h' := h.mono fun v hv => (hl v hv).1
  unfold Threads.loopStep at hl ⊢
  unfold drainsSource drainsResult gives
  cases hpc : t.loop with
  | blocked =>
    simp only [List.append_nil]
    split
    · exact h'.goto (by rw [hpc]; rfl) (by rw [hpc]; rfl) (by rw [hpc]; rfl) (by rw [hpc]; rfl)
    · exact h'
  | collecting collected =>
    simp only [List.append_nil]
    split <;>
      exact h'.goto (by rw [hpc]; rfl) (by rw [hpc]; rfl) (by rw [hpc]; rfl) (by rw [hpc]; rfl)
  | processing commands hasUpdates shouldShutdown =>
    simp only [List.append_nil]
    cases commands with
    | cons c commands =>
      simp only [Orderly, hpc] at ho hl
      exact h.process hawake hpc ho hl
    | nil =>
      cases hasUpdates with
      | true =>
        -- no removal is ever deferred here, so draining them does nothing
        simp only [drainPendingRemovals_of_nil h.proper.ok.drained]
        exact h'.goto (by rw [hpc]; rfl) (by rw [hpc]; rfl) (by rw [hpc]; rfl) (by rw [hpc]; rfl)
      | false =>
        obtain ⟨hupdated, hresults, houtbox, hspawns⟩ :=
          @LoopPc.nextPc_parts V shouldShutdown
        exact h'.goto (by rw [hupdated, hpc]; rfl) (by rw [hresults, hpc]; rfl)
          (by rw [houtbox, hpc]; rfl) (by rw [hspawns, hpc]; rfl)
  | sending outbox replies commands hasUpdates shouldShutdown =>
    simp only [List.append_nil]
    cases outbox with
    | cons msg outbox =>
      refine h'.frame (.refl _) rfl rfl (fun msg' hmsg' => Or.inl ?_) h'.tasks (by rw [hpc]; rfl)
        (by rw [hpc]; rfl) fun _ hs => absurd hs List.not_mem_nil
      simp only [sending, hpc, LoopPc.outbox, List.mem_append, List.mem_cons, List.not_mem_nil,
        or_false] at hmsg' ⊢
      tauto
    | nil => exact h'.goto (by rw [hpc]; rfl) (by rw [hpc]; rfl) (by rw [hpc]; rfl) (by rw [hpc]; rfl)
  | drainingSources updated shouldShutdown =>
    cases hrx : t.engine.graph.sourceRx with
    | nil =>
      simp only [List.head?_nil, Option.toList_none, List.append_nil]
      exact h'.goto (by rw [hpc]; rfl) (by rw [hpc]; rfl) (by rw [hpc]; rfl) (by rw [hpc]; rfl)
    | cons msg sourceRx =>
      simp only [List.append_nil]
      exact h'.drainSource hpc hrx
  | drainingResults updated results shouldShutdown =>
    cases hrx : t.engine.asyncManager.resultRx with
    | nil =>
      simp only [List.head?_nil, Option.toList_none, List.append_nil]
      exact h'.goto (by rw [hpc]; rfl) (by rw [hpc]; rfl) (by rw [hpc]; rfl) (by rw [hpc]; rfl)
    | cons result resultRx =>
      simp only [List.append_nil]
      exact h'.drainResult hpc hrx
  | completing completed updated results shouldShutdown =>
    cases completed with
    | cons id completed =>
      simp only [List.append_nil]
      refine h'.frame ⟨rfl, rfl, rfl, rfl, rfl, rfl, rfl⟩ rfl rfl (fun msg hmsg => Or.inl ?_)
        (h'.tasks.processCompletion id) (by rw [hpc]; rfl) (by rw [hpc]; rfl)
        fun _ hs => absurd hs List.not_mem_nil
      rw [sending, hpc]
      exact hmsg
    | nil =>
      simp only [List.append_nil]
      exact h'.execute o hpc
  | spawning spawns metrics shouldShutdown =>
    simp only [List.append_nil]
    cases spawns with
    | cons s spawns =>
      have hs : kind s.nodeId = .asyncCompute := h.spawns s (by rw [hpc]; exact List.mem_cons_self)
      refine h'.frame ⟨rfl, rfl, rfl, rfl, rfl, rfl, rfl⟩ rfl rfl (fun msg hmsg => Or.inl ?_)
        (h'.tasks.spawn hs _ _ _) (by rw [hpc]; rfl) (by rw [hpc]; rfl) fun s' hs' => ?_
      · rw [sending, hpc]
        exact hmsg
      · rw [hpc]
        exact List.mem_cons_of_mem _ hs'
    | nil =>
      obtain ⟨hupdated, hresults, houtbox, hspawns⟩ := @LoopPc.nextPc_parts V shouldShutdown
      refine h'.frame ⟨rfl, rfl, rfl, rfl, rfl, rfl, rfl⟩ rfl rfl (fun msg hmsg => Or.inl ?_) h'.tasks
        (by rw [hupdated, hpc]; rfl) (by rw [hresults, hpc]; rfl) fun s hs => ?_
      · rw [sending, houtbox] at hmsg
        rw [sending, hpc]
        exact hmsg
      · rw [hspawns] at hs
        exact absurd hs List.not_mem_nil
  | stopped => simpa only [List.append_nil] using h'

theorem Coherent.apply (h : t.Coherent kind lasts ss rs fs) (hawake : t.Awake) (m : Move V)
    (hm : t.Orderly kind m) (hl : ∀ v, lasts' v → lasts v ∧
      (v ∈ t.engine.graph.entries.keys → v ∈ (t.apply m).engine.graph.entries.keys)) :
    (t.apply m).Coherent kind lasts' (ss ++ t.drainsSource m) (rs ++ t.drainsResult m)
      (fs ++ t.gives m) := by
  have h' := h.mono fun v hv => (hl v hv).1
  cases m with
  | loop o => exact h.loopStep hawake o hm hl
  | bridge =>
    simp only [drainsSource, drainsResult, gives, List.append_nil]
    exact h'.bridgeStep
  | complete id =>
    simp only [drainsSource, drainsResult, gives, List.append_nil]
    exact h'.manager (h'.tasks.complete id)
  | notify =>
    simp only [drainsSource, drainsResult, gives, List.append_nil]
    exact h'.notifyStep
  | send id value =>
    simp only [drainsSource, drainsResult, gives, List.append_nil]
    exact h'.send hm value
  | updateSource id value =>
    simp only [drainsSource, drainsResult, gives, List.append_nil]
    exact h'.post _
  | merge subgraph reply =>
    simp only [drainsSource, drainsResult, gives, List.append_nil]
    exact h'.post _
  | dropHandle nodeIds =>
    simp only [drainsSource, drainsResult, gives, List.append_nil, Threads.apply]
    split
    · exact h'
    · exact h'.post _
  | shutdown =>
    simp only [drainsSource, drainsResult, gives, List.append_nil]
    exact h'.post _

end Threads

end ReactiveGraph
