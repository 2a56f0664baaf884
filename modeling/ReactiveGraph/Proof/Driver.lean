import ReactiveGraph.Proof.AsyncOrder
import ReactiveGraph.Proof.Lives
import ReactiveGraph.Proof.QueuePolicy

/-!
# The engine drives its manager

What is known of the async manager is known of it in an environment that spawns, completes and drains
in any order it likes (`PolledSystem`). The engine is one such environment. A cycle drains once,
before it executes anything, and spawns the futures of its async nodes one after the other when it
has executed everything; a group is made when the program asks for one; what else a program calls
does not touch the manager. So **each run of an engine, with the tasks of its async nodes completing
in between as they like, is a run of its manager** (`TaskSession.exists_polled_run`), and what holds
of all runs of the manager holds of the manager of every engine.

The first use is the order of results. An async node that is built on the engine's graph with the
policy `queue` and without a group gives out its futures cycle by cycle, and cycles take their
results out again in that order, one at a time.

The engine here is one that the program calls itself. An event loop's engine gets all its nodes from
subgraphs, of which none can hold an async node, so there is nothing in its manager to speak of; the
call that prepares an engine for the loop (`interpose`) is left out for that reason.
-/

namespace ReactiveGraph

open Engine

variable {V : Type*}

/-! ## What a call does to the manager -/

/-- The call of `spawn` for a future that a cycle has found. -/
def AsyncSpawn.action (w : AsyncSpawn V) : AsyncAction V :=
  .spawn w.nodeId w.future w.policy w.groupId

/-- The node and the future of a spawn. -/
def AsyncSpawn.given (w : AsyncSpawn V) : NodeId × V := (w.nodeId, w.future)

theorem AsyncSystem.run_spawns (s : AsyncSystem V) (spawns : List (AsyncSpawn V)) :
    Runs.run AsyncSystem.apply s (spawns.map AsyncSpawn.action) =
      ⟨spawns.foldl (fun m w => m.spawn w.nodeId w.future w.policy w.groupId) s.manager,
        s.spawned ++ spawns.map AsyncSpawn.given, s.drained⟩ := by
  induction spawns generalizing s with
  | nil => rw [List.map_nil, List.map_nil, List.append_nil]; rfl
  | cons w spawns ih =>
    rw [List.map_cons, Runs.run_cons, ih, List.map_cons, List.append_cons]
    rfl

namespace Call

/-- The futures that the call spawns: those that a cycle finds, with the engine as the removals
leave it and the store as it has received everything. -/
def spawns (s : Session V) (c : Call V) : List (AsyncSpawn V) :=
  match c.cycle with
  | some (o, parallel) => (c.pruned s).received.spawnsOf o parallel (c.pruned s).updated
  | none => []

/-- The results that the call takes out of the channel. -/
def takes (s : Session V) (c : Call V) : List (NodeId × V) :=
  match c.cycle with
  | some _ => s.engine.asyncManager.resultRx
  | none => []

/-- What the call does to the manager, step by step. -/
def actions (s : Session V) (c : Call V) : List (AsyncAction V) :=
  match c with
  | .runCycle _ | .runCycleParallel _ => .drain :: (c.spawns s).map AsyncSpawn.action
  | .concurrencyGroup n => [.createGroup n]
  | .complete task => [.complete task]
  | _ => []

/-- **A call is a run of the manager**, in which what is spawned and drained is what the call spawns
and takes. A cycle is a drain followed by its spawns, and every other call is one action or none. -/
theorem run_actions {c : Call V} (s : Session V) (hc : c ≠ .interpose)
    (spawned drained : List (NodeId × V)) :
    Runs.run AsyncSystem.apply ⟨s.engine.asyncManager, spawned, drained⟩ (c.actions s) =
      ⟨(s.apply c).engine.asyncManager, spawned ++ (c.spawns s).map AsyncSpawn.given,
        drained ++ c.takes s⟩ := by
  have hpruned := (shrinks_pruned s c).asyncManager
  cases hcycle : c.cycle with
  | none =>
    -- no cycle: the manager is touched by the one action that the call is, if any
    have hmanager := (leads_apply s hcycle).asyncManager
    rw [hpruned] at hmanager
    have hspawns : c.spawns s = [] := by rw [spawns, hcycle]
    have htakes : c.takes s = [] := by rw [takes, hcycle]
    rw [hmanager, hspawns, htakes, List.map_nil, List.append_nil, List.append_nil]
    cases c with
    | interpose => exact absurd rfl hc
    | runCycle | runCycleParallel => exact absurd hcycle (by simp [cycle])
    | graph | register | merge | dropHandle | dropRemote | remove | deactivateNode | activateSink
    | setErrorStrategy | concurrencyGroup | send | update | forward | complete => rfl
  | some p =>
    obtain ⟨o, parallel⟩ := p
    -- a cycle drains first, and spawns what its triggers ask for
    have hactions : c.actions s = .drain :: (c.spawns s).map AsyncSpawn.action := by
      cases c with
      | runCycle | runCycleParallel => rfl
      | _ => exact absurd hcycle (by simp [cycle])
    have hspawns : c.spawns s = (c.pruned s).received.spawnsOf o parallel (c.pruned s).updated := by
      rw [spawns, hcycle]
    have htakes : c.takes s = s.engine.asyncManager.resultRx := by rw [takes, hcycle]
    rw [hactions, Runs.run_cons, AsyncSystem.run_spawns, htakes,
      engine_apply_cycle s hcycle, (channels_runCycleImpl o parallel _).2, ← hspawns, hpruned]
    rfl

end Call

/-! ## An engine and its tasks -/

/-- A session, and the tasks of its engine that are in their last poll. They are no longer the
runtime's to abort, and have not sent yet. -/
structure TaskSession (V : Type*) where
  session : Session V
  finishing : List (Task V)

/-- A step of the program, or of a task that is in its last poll or comes to it. A task that
completes before an abort could matter is a call of the session. -/
inductive TaskCall (V : Type*) where
  | call (c : Call V)
  | lastPoll (id : TaskId)
  | send (i : ℕ)

namespace TaskSession

def init : TaskSession V := ⟨.init, []⟩

def manager (t : TaskSession V) : AsyncManager V := t.session.engine.asyncManager

/-- The session with another manager. -/
def setManager (t : TaskSession V) (m : AsyncManager V) : Session V :=
  { t.session with engine := { t.session.engine with asyncManager := m } }

def apply (t : TaskSession V) : TaskCall V → TaskSession V
  | .call c => { t with session := t.session.apply c }
  | .lastPoll id =>
    match t.manager.runtime.find id with
    | some task =>
      ⟨t.setManager { t.manager with runtime := t.manager.runtime.remove id },
        t.finishing ++ [task]⟩
    | none => t
  | .send i =>
    match t.finishing[i]? with
    | some task => ⟨t.setManager (t.manager.deliver task), t.finishing.eraseIdx i⟩
    | none => t

/-- Where a run from a new engine ends. -/
def run (as : List (TaskCall V)) : TaskSession V := Runs.run apply init as

/-- The futures that a step gives to the manager. -/
def gives (t : TaskSession V) : TaskCall V → List (NodeId × V)
  | .call c => (c.spawns t.session).map AsyncSpawn.given
  | .lastPoll _ | .send _ => []

/-- The results that a step takes from it. -/
def takes (t : TaskSession V) : TaskCall V → List (NodeId × V)
  | .call c => c.takes t.session
  | .lastPoll _ | .send _ => []

/-- The manager and its tasks, and what they have been given and relieved of. -/
def polled (t : TaskSession V) (given taken : List (NodeId × V)) : PolledSystem V :=
  ⟨⟨t.manager, given, taken⟩, t.finishing⟩

theorem run_calls (s : PolledSystem V) (as : List (AsyncAction V)) :
    Runs.run PolledSystem.apply s (as.map PolledAction.call) =
      { s with toAsyncSystem := Runs.run AsyncSystem.apply s.toAsyncSystem as } := by
  induction as generalizing s with
  | nil => rfl
  | cons a as ih => rw [List.map_cons, Runs.run_cons, ih]; rfl

/-- **A step of the engine or a task is a run of the manager.** A call leaves the tasks in their
last poll alone; the other two steps are the manager's own. -/
theorem exists_polled_step (t : TaskSession V) {a : TaskCall V} (ha : a ≠ .call .interpose)
    (given taken : List (NodeId × V)) : ∃ bs, Runs.run PolledSystem.apply (t.polled given taken) bs =
      (t.apply a).polled (given ++ t.gives a) (taken ++ t.takes a) := by
  cases a with
  | call c =>
    have hc : c ≠ .interpose := fun h => ha (by rw [h])
    refine ⟨(c.actions t.session).map PolledAction.call, ?_⟩
    rw [run_calls, polled, manager, Call.run_actions t.session hc]
    rfl
  | lastPoll id =>
    refine ⟨[.lastPoll id], ?_⟩
    rw [gives, takes, List.append_nil, List.append_nil, Runs.run_cons, Runs.run_nil]
    simp only [PolledSystem.apply, apply, polled]
    cases t.manager.runtime.find id <;> rfl
  | send i =>
    refine ⟨[.send i], ?_⟩
    rw [gives, takes, List.append_nil, List.append_nil, Runs.run_cons, Runs.run_nil]
    simp only [PolledSystem.apply, apply, polled]
    cases t.finishing[i]? <;> rfl

/-- **A run of an engine is a run of its manager**, in which what is spawned is what its cycles have
found and what is drained is what they have taken out. So every theorem over all runs of
`PolledSystem` is one over all runs of an engine, with these two lists for its own. -/
theorem exists_polled_run (as : List (TaskCall V)) (h : ∀ a ∈ as, a ≠ .call .interpose) :
    ∃ bs, Runs.run PolledSystem.apply .init bs =
      (run as).polled (Runs.trace apply gives init as) (Runs.trace apply takes init as) := by
  refine Runs.trace_induction (I := fun (t : TaskSession V) given taken =>
      ∃ bs, Runs.run PolledSystem.apply .init bs = t.polled given taken)
    (fun _ (a : TaskCall V) => a ≠ .call .interpose) ?_ ⟨[], rfl⟩ (.of_forall h)
  rintro t a given taken ⟨bs, hbs⟩ ha
  obtain ⟨bs', hbs'⟩ := t.exists_polled_step ha given taken
  exact ⟨bs ++ bs', by rw [Runs.run_append, hbs, hbs']⟩

/-! ## The order of results -/

/-- **`queue` keeps its order in an engine.** Of an async node that the manager holds under `queue` and
in no group, the futures that cycles have given out are, in this order: those whose results cycles
have taken out, the one whose result waits in the channel or which runs, if there is one, and those
that are parked behind it. There is no more than one in the middle, and none is parked without it.

The run is any run of the engine's calls, cycles of either kind with hash sets walked in any order,
while tasks complete, come to their last poll and send when they like. It rests on the account of the
manager's own runs (`PolledSystem.Served`) and on each run of the engine being one of them. -/
theorem queue_in_order (as : List (TaskCall V)) (h : ∀ a ∈ as, a ≠ .call .interpose) {n : NodeId}
    (hq : (run as).manager.policyOf n = some .queue) (hg : (run as).manager.groupIdOf n = none) :
    let s := (run as).polled (Runs.trace apply gives init as) (Runs.trace apply takes init as)
    valuesOf (Runs.trace apply gives init as) n =
        valuesOf (Runs.trace apply takes init as) n ++ s.unfinishedOf n ++
          (run as).manager.pendingOf n ∧
      (s.unfinishedOf n).length ≤ 1 ∧
      (s.unfinishedOf n = [] → (run as).manager.pendingOf n = []) := by
  obtain ⟨bs, hbs⟩ := exists_polled_run as h
  have hserved : (Runs.run PolledSystem.apply .init bs).Served :=
    Runs.invariant_of_step (I := PolledSystem.Served) (fun _ b hs => hs.apply b) .init
  rw [hbs] at hserved
  obtain ⟨haccount, hone, hidle⟩ := hserved.fifo hq hg
  exact ⟨haccount.symm, hone, hidle⟩

open Sample in
/-- A source and an async node that waits for its turn are built on the graph, and a sink on the async
node is merged. A second cycle gives out a future while the task of the first is in its last poll. -/
def waitsItsTurn : List (TaskCall ℕ) :=
  [.call .graph, .call (.register (node .source 0 [])),
    .call (.register { node .asyncCompute 1 [0] with nodeImpl := { impl with asyncPolicy := .queue } }),
    .call (.merge [node .sink 2 [1]]), .call (.send (nodeId 0) 3), .call (.runCycle default),
    .lastPoll 0, .call (.send (nodeId 0) 5), .call (.runCycleParallel default)]

open Sample in
theorem queue_in_order_waitsItsTurn :
    let s := (run waitsItsTurn).polled (Runs.trace apply gives init waitsItsTurn)
      (Runs.trace apply takes init waitsItsTurn)
    s.unfinishedOf (nodeId 1) = [3] ∧ (run waitsItsTurn).manager.pendingOf (nodeId 1) = [5] ∧
      valuesOf (Runs.trace apply gives init waitsItsTurn) (nodeId 1) =
        valuesOf (Runs.trace apply takes init waitsItsTurn) (nodeId 1) ++ s.unfinishedOf (nodeId 1) ++
          (run waitsItsTurn).manager.pendingOf (nodeId 1) := by
  refine ⟨by decide +kernel, by decide +kernel, (queue_in_order waitsItsTurn (fun a ha => ?_)
    (by decide +kernel) (by decide +kernel)).1⟩
  simp only [waitsItsTurn, List.mem_cons, List.not_mem_nil, or_false] at ha
  rcases ha with rfl | rfl | rfl | rfl | rfl | rfl | rfl | rfl | rfl <;> simp

end TaskSession

end ReactiveGraph
