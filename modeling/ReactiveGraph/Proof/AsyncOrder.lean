import ReactiveGraph.Proof.Coherence

/-!
# Futures come out in the order they went in

`QueuePolicy` has the manager's own account of a node under `queue`, and `Driver` the account of an
engine that the program calls itself: there a cycle drains the result channel at one stroke. The
loop of a started engine is modelled step by step. It takes one result at a time and then processes
one completion at a time, tasks complete in between, and the futures of a cycle are spawned one by
one after it. What is kept through all that is a single list for each node (`Serving`): the futures
given out for it are those drained, those in the line of the manager, and those that the loop is
about to spawn, in this order. A started engine has no concurrency groups, for `EngineHandle` offers
no way of making one, so nothing overtakes in that line.

None of this is a result about programs by itself. The builder of subgraphs has no async nodes, so
the manager of a started engine has no futures to keep in order; the threads of the model would take
a subgraph that holds one, and what is proved of them covers that case. `Convergence` uses the
account for its clause about async nodes.
-/

namespace ReactiveGraph

/-! ## The values for one node -/

section ValuesOf

variable {α : Type*}

def valuesOf (updates : List (NodeId × α)) (id : NodeId) : List α :=
  (updates.filter fun update => update.1 = id).map Prod.snd

@[simp] theorem valuesOf_nil (id : NodeId) : valuesOf ([] : List (NodeId × α)) id = [] := rfl

@[simp] theorem valuesOf_append (updates updates' : List (NodeId × α)) (id : NodeId) :
    valuesOf (updates ++ updates') id = valuesOf updates id ++ valuesOf updates' id := by
  rw [valuesOf, List.filter_append, List.map_append]
  rfl

theorem valuesOf_singleton (id id' : NodeId) (value : α) :
    valuesOf [(id', value)] id = if id' = id then [value] else [] := by
  unfold valuesOf
  split <;> simp [*]

theorem lastSent_eq_getLast? (updates : List (NodeId × α)) (id : NodeId) :
    lastSent updates id = (valuesOf updates id).getLast? := by
  rw [lastSent, valuesOf, List.getLast?_map]

end ValuesOf

namespace AsyncManager

variable {F : Type*} {m m' : AsyncManager F} {n : NodeId} {owing : List NodeId}

/-! ## A manager without groups -/

/-- No concurrency group has been made. -/
def Ungrouped (m : AsyncManager F) : Prop := ∀ gid, m.groups.get gid = none

theorem Ungrouped.congr (h : m.Ungrouped) (hg : m'.groups = m.groups) : m'.Ungrouped := by
  intro gid
  rw [hg]
  exact h gid

theorem Ungrouped.groupOf (h : m.Ungrouped) (n : NodeId) : m.groupOf n = none := by
  rw [groupOf_eq]
  cases m.groupIdOf n with
  | none => rfl
  | some gid => rw [Option.bind_some, h gid, Option.map_none]

theorem Ungrouped.releaseSlot (h : m.Ungrouped) (gid : ℕ) : m.releaseSlot gid = m := by
  rw [AsyncManager.releaseSlot, h gid]

theorem Ungrouped.settleGroup (h : m.Ungrouped) (groupId : Option ℕ) :
    m.settleGroup groupId = m := by
  cases groupId with
  | none => rfl
  | some gid =>
    rw [AsyncManager.settleGroup, h.releaseSlot, trySpawnFromGroupQueue, h gid]

theorem Ungrouped.startWithin (h : m.Ungrouped) (n : NodeId) (f : F) (d : Option ℕ) :
    m.startWithin n f d = m.start n f d := by
  rw [AsyncManager.startWithin, h.groupOf]

theorem Ungrouped.cancelExisting (h : m.Ungrouped) (n : NodeId) (state : AsyncNodeState F) :
    (m.cancelExisting n state).groups = m.groups := by
  unfold AsyncManager.cancelExisting
  split
  · next handle _ =>
    have hset : ({ m with runtime := m.runtime.abort handle }.setState n
        { state with inFlight := none }).Ungrouped := h
    split
    · rw [hset.releaseSlot]
      rfl
    · rfl
  · rfl

theorem Ungrouped.processCompletion (h : m.Ungrouped) (n : NodeId) :
    (m.processCompletion n).Ungrouped := by
  cases hs : m.nodeStates.get n with
  | none => rwa [processCompletion_of_none hs]
  | some state =>
    have hset : (m.setState n state.settle.1).Ungrouped := h
    rw [processCompletion_of_get hs, hset.settleGroup]
    split
    · rw [trySpawn, hset.startWithin]
      exact hset.congr (groups_start _ _ _ _)
    · exact hset

theorem Ungrouped.spawn (h : m.Ungrouped) (n : NodeId) (f : F) (policy : AsyncPolicy)
    (groupId : Option ℕ) : (m.spawn n f policy groupId).Ungrouped := by
  have hrec : (m.record n policy groupId).Ungrouped := h
  by_cases hc : (m.stateOr n policy groupId).policy.cancels
  · obtain ⟨d, heq⟩ := spawn_of_cancels (f := f) hc
    have hcancel := hrec.congr (hrec.cancelExisting n (m.stateOr n policy groupId))
    rw [heq, hcancel.startWithin]
    exact hcancel.congr (groups_start _ _ _ _)
  · rw [spawn_of_queue (AsyncPolicy.eq_queue_of_not_cancels hc)]
    split
    · exact hrec
    · rw [hrec.startWithin]
      exact hrec.congr (groups_start _ _ _ _)

theorem Ungrouped.complete (h : m.Ungrouped) (id : TaskId) : (m.complete id).Ungrouped := by
  obtain heq | ⟨task, -, -, heq⟩ := m.complete_cases id <;> rw [heq] <;> exact h

theorem Ungrouped.filled (h : m.Ungrouped) : m.Filled none := by
  intro gid group hg
  rw [h gid] at hg
  exact absurd hg (by simp)

theorem Ungrouped.lineOf (h : m.Ungrouped) (n : NodeId) :
    m.lineOf n = (m.tasksOf n).map Task.future := by
  rw [AsyncManager.lineOf, waitingOf, h.groupOf, List.append_nil]

/-- The policy of a node's first trigger stays. -/
theorem policyOf_spawn_of_some {p : AsyncPolicy} (h : m.policyOf n = some p) (n' : NodeId) (f : F)
    (policy : AsyncPolicy) (groupId : Option ℕ) :
    (m.spawn n' f policy groupId).policyOf n = some p := by
  rw [policyOf_spawn, record, policyOf_setState]
  split
  · next heq =>
    subst heq
    obtain ⟨state, hs, rfl⟩ := Option.map_eq_some_iff.mp h
    rw [stateOr_of_get hs]
  · exact h

/-! ## One future at a time -/

/-- What `queue` keeps up for a node: work that is parked has work ahead of it, and no more than one
future is ahead. `owing` are the results whose completions are still to be processed. -/
structure Serial (m : AsyncManager F) (owing : List NodeId) (n : NodeId) : Prop where
  backed : m.Backed owing n
  single : m.Single owing n

theorem Serial.of_same (h : m.Serial owing n)
    (hstate : m'.nodeStates.get n = m.nodeStates.get n) (htasks : m'.tasksOf n = m.tasksOf n)
    (hline : m'.lineOf n = m.lineOf n) : m'.Serial owing n := by
  have hpend : m'.pendingOf n = m.pendingOf n := by rw [pendingOf, hstate, pendingOf]
  refine ⟨⟨fun hh => ?_, fun hp => ?_⟩, ?_, fun hh => ?_⟩
  · rw [handleOf_congr hstate] at hh
    rw [htasks]
    exact h.backed.held hh
  · rw [hpend] at hp
    rw [hline]
    exact h.backed.pending hp
  · rw [← length_lineOf, hline, length_lineOf]
    exact h.single.one
  · rw [handleOf_congr hstate] at hh
    rw [htasks]
    exact h.single.unheld hh

theorem Serial.processCompletion {n' : NodeId} (h : m.Serial (n' :: owing) n) (hw : m.WF)
    (hu : m.Ungrouped) (hq : m.Queues n) : (m.processCompletion n').Serial owing n :=
  ⟨h.backed.processCompletion hw hu.filled hq, h.single.processCompletion hw hu.filled⟩

/-- **A trigger goes to the end.** With a handle it is parked behind what is parked; without one
nothing of the node is anywhere. That no group is in the way is what makes the second true. -/
theorem Serial.spawn (h : m.Serial owing n) (hw : m.WF) (hu : m.Ungrouped) (policy : AsyncPolicy)
    (groupId : Option ℕ) (hp : (m.stateOr n policy groupId).policy = .queue) (f : F) :
    (m.spawn n f policy groupId).Serial owing n ∧
      (m.spawn n f policy groupId).heldOf n = m.heldOf n ++ [f] := by
  obtain hpends | hlines := spawn_queue_cases hw hu.filled hp f
  · refine ⟨⟨⟨fun _ => ?_, fun _ => ?_⟩, ?_, fun hh => ?_⟩, ?_⟩
    · rw [hpends.tasksOf]
      exact h.backed.held hpends.handle
    · rw [hpends.lineOf, hu.lineOf, ne_eq, List.map_eq_nil_iff]
      exact h.backed.held hpends.handle
    · rw [← length_lineOf, hpends.lineOf, length_lineOf]
      exact h.single.one
    · rw [hpends.handleOf] at hh
      exact absurd hh hpends.handle
    · rw [heldOf, hpends.lineOf, hpends.pendingOf, heldOf, List.append_assoc]
  · obtain ⟨htasks, hno⟩ := h.single.unheld hlines.handle
    have hline : m.lineOf n = [] := by rw [hu.lineOf, htasks, List.map_nil]
    have hpend : m.pendingOf n = [] :=
      by_contra fun hp => (h.backed.pending hp).elim (fun hne => hne hline) hno
    refine ⟨⟨⟨h.backed.held.mono hlines.starts, fun hp => ?_⟩, ?_,
      h.single.unheld.mono hlines.starts⟩, ?_⟩
    · exact absurd (hlines.pendingOf.trans hpend) hp
    · rw [← length_lineOf, hlines.lineOf, hline, List.count_eq_zero.mpr hno]
      exact le_rfl
    · rw [heldOf, hlines.lineOf, hlines.pendingOf, heldOf, hline, hpend]
      rfl

theorem Serial.spawn_of_ne (h : m.Serial owing n) (hw : m.WF) {n' : NodeId} (hn : n ≠ n') (f : F)
    (policy : AsyncPolicy) (groupId : Option ℕ) :
    (m.spawn n' f policy groupId).Serial owing n ∧
      (m.spawn n' f policy groupId).heldOf n = m.heldOf n := by
  have hstate : (m.spawn n' f policy groupId).nodeStates.get n = m.nodeStates.get n :=
    get_nodeStates_spawn_of_ne hn f
  have hline : (m.spawn n' f policy groupId).lineOf n = m.lineOf n := lineOf_spawn_of_ne hw hn f
  refine ⟨h.of_same hstate (tasksOf_spawn_of_ne hw hn) hline, ?_⟩
  rw [heldOf, hline, pendingOf, hstate, ← pendingOf, heldOf]

/-- The tasks of a node when one of them, or another's, has sent its result. -/
theorem tasksOf_finish {task : Task F} (hmem : task ∈ m.runtime.running) (n : NodeId)
    (resultRx : List (NodeId × F)) :
    ({ m with runtime := m.runtime.finish task, resultRx := resultRx }).tasksOf n =
      if task.nodeId = n then (m.tasksOf n).filter (·.id ≠ task.id) else m.tasksOf n := by
  have hfilter : ({ m with runtime := m.runtime.finish task, resultRx := resultRx }).tasksOf n =
      (m.tasksOf n).filter (·.id ≠ task.id) := by
    simp only [tasksOf, Runtime.running_finish, List.filter_filter]
    exact List.filter_congr fun _ _ => Bool.and_comm _ _
  rw [hfilter]
  split
  · rfl
  · next hn =>
    refine List.filter_eq_self.mpr fun t ht => ?_
    obtain ⟨hrun, hnode⟩ := List.mem_filter.mp ht
    simp only [ne_eq, decide_not, Bool.not_eq_eq_eq_not, Bool.not_true, decide_eq_false_iff_not]
    -- a task with the same id is the same task, of another node
    intro hid
    rw [m.runtime.eq_of_id_eq hrun hmem hid] at hnode
    exact hn (of_decide_eq_true hnode)

/-- **A result leaves the line at its head**: its task was the node's only one, so no other result
of the node can come before it. -/
theorem Serial.finish (h : m.Serial owing n) (hu : m.Ungrouped) {task : Task F}
    (hmem : task ∈ m.runtime.running) (resultRx : List (NodeId × F)) :
    let m' := { m with runtime := m.runtime.finish task, resultRx := resultRx }
    m'.Serial (owing ++ [task.nodeId]) n ∧
      m.heldOf n = valuesOf [(task.nodeId, task.future)] n ++ m'.heldOf n := by
  intro m'
  have hu' : m'.Ungrouped := hu
  have htasks := tasksOf_finish hmem n resultRx
  have hpend : m'.pendingOf n = m.pendingOf n := rfl
  rw [valuesOf_singleton]
  by_cases hn : task.nodeId = n
  -- the node's own task: it is the only one, so the line is empty behind it
  · have hin : task ∈ m.tasksOf n := List.mem_filter.mpr ⟨hmem, decide_eq_true hn⟩
    have hone := h.single.one
    rw [load] at hone
    have hall : m.tasksOf n = [task] := by
      have hlen := List.length_pos_of_mem hin
      obtain ⟨t, ht⟩ := List.length_eq_one_iff.mp (by omega : (m.tasksOf n).length = 1)
      rw [ht, List.mem_singleton] at hin
      rw [ht, hin]
    have hnone : m'.tasksOf n = [] := by
      rw [htasks, if_pos hn, hall]
      simp
    rw [hall] at hone
    refine ⟨⟨⟨fun _ => Or.inr (by simp [hn]), fun _ => Or.inr (by simp [hn])⟩, ?_, fun hh => ?_⟩, ?_⟩
    · rw [← length_lineOf, hu'.lineOf, hnone, List.count_append, hn, List.count_singleton_self]
      simp only [List.length_singleton, List.map_nil, List.length_nil] at hone ⊢
      omega
    · have hnil := (h.single.unheld hh).1
      rw [hall] at hnil
      exact absurd hnil (List.cons_ne_nil _ _)
    · rw [if_pos hn, heldOf, heldOf, hpend, hu.lineOf, hu'.lineOf, hall, hnone]
      rfl
  -- a task of another node: nothing of this one moves
  · rw [if_neg hn] at htasks
    have hline : m'.lineOf n = m.lineOf n := by rw [hu'.lineOf, hu.lineOf, htasks]
    have hserial : m'.Serial owing n := h.of_same rfl htasks hline
    obtain ⟨⟨hheld, hpending⟩, hone, hunheld⟩ := hserial
    have hmem : n ∈ owing ++ [task.nodeId] ↔ n ∈ owing := by
      rw [List.mem_append, List.mem_singleton, or_iff_left (Ne.symm hn)]
    refine ⟨⟨⟨fun hh => ?_, fun hp => ?_⟩, ?_, fun hh => ?_⟩, ?_⟩
    · rw [hmem]
      exact hheld hh
    · rw [hmem]
      exact hpending hp
    · rw [List.count_append, List.count_singleton, if_neg (by simpa using hn)]
      exact hone
    · rw [hmem]
      exact hunheld hh
    · rw [if_neg hn, heldOf, heldOf, hline, hpend]
      rfl

end AsyncManager

open Engine

variable {V : Type*}

/-! ## What the threads have under way -/

namespace LoopPc

/-- The drained results whose completions are still to be processed. -/
def due : LoopPc V → List NodeId
  | .drainingResults _ results _ => results.map Prod.fst
  | .completing completed _ _ _ => completed
  | _ => []

@[simp] theorem due_nextPc (shouldShutdown : Bool) :
    (Threads.nextPc shouldShutdown : LoopPc V).due = [] := by
  cases shouldShutdown <;> rfl

end LoopPc

namespace Threads

variable {t t' : Threads V} {n : NodeId} {given drained : List (NodeId × V)}

/-- The results that are still to be processed, drained or not. -/
def owing (t : Threads V) : List NodeId :=
  t.loop.due ++ t.engine.asyncManager.resultRx.map Prod.fst

/-- The futures of a node that are given out and not drained, in the order in which they will be:
sent, held by the manager, about to be spawned. -/
def lined (t : Threads V) (n : NodeId) : List V :=
  t.engine.asyncManager.resultsOf n ++ t.engine.asyncManager.heldOf n ++
    valuesOf (futures t.loop.spawns) n

structure InOrder (t : Threads V) (n : NodeId) (given drained : List (NodeId × V)) : Prop where
  serial : t.engine.asyncManager.Serial t.owing n
  account : valuesOf given n = valuesOf drained n ++ t.lined n

/-- Every node under `queue` is in order. That there are no groups is part of the invariant, since
no command makes one. -/
structure Serving (t : Threads V) (given drained : List (NodeId × V)) : Prop where
  wf : t.engine.asyncManager.WF
  ungrouped : t.engine.asyncManager.Ungrouped
  inOrder : ∀ n, t.engine.asyncManager.Queues n → t.InOrder n given drained

theorem Serving.init : Serving (init : Threads V) [] [] where
  wf := by
    obtain ⟨h1, h2, h3, h4, h5, h6⟩ := AsyncManager.WF.new (F := V)
    exact ⟨h1, h2, h3, h4, h5, h6⟩
  ungrouped _ := rfl
  inOrder n _ := by
    exact ⟨⟨⟨fun hh => absurd rfl hh, fun hp => absurd rfl hp⟩,
      ⟨Nat.zero_le 1, fun _ => ⟨rfl, List.not_mem_nil⟩⟩⟩, rfl⟩

/-- A step that has nothing to do with the manager. -/
theorem Serving.congr (h : t.Serving given drained)
    (hm : t'.engine.asyncManager = t.engine.asyncManager) (hdue : t'.loop.due = t.loop.due)
    (hspawns : t'.loop.spawns = t.loop.spawns) : t'.Serving given drained := by
  have howing : t'.owing = t.owing := by rw [owing, hdue, hm, owing]
  have hlined : t'.lined = t.lined := by
    funext n
    rw [lined, hm, hspawns, lined]
  refine ⟨by rw [hm]; exact h.wf, by rw [hm]; exact h.ungrouped, fun n hq => ?_⟩
  rw [hm] at hq
  obtain ⟨hserial, haccount⟩ := h.inOrder n hq
  exact ⟨by rw [hm, howing]; exact hserial, by rw [hlined]; exact haccount⟩

/-! ## The tasks -/

theorem Serving.completeStep (h : t.Serving given drained) (id : TaskId) :
    (t.completeStep id).Serving given drained := by
  refine ⟨h.wf.complete id, h.ungrouped.complete id, fun n hq => ?_⟩
  have hq' : t.engine.asyncManager.Queues n := fun p hp => hq p (by
    rwa [Threads.completeStep, AsyncManager.policyOf_complete])
  obtain ⟨hserial, haccount⟩ := h.inOrder n hq'
  obtain heq | ⟨task, hmem, -, heq⟩ := t.engine.asyncManager.complete_cases id
  · refine ⟨?_, ?_⟩
    · simp only [Threads.completeStep, owing, heq]
      exact hserial
    · simp only [Threads.completeStep, lined, heq]
      exact haccount
  · obtain ⟨hserial', hheld⟩ := hserial.finish h.ungrouped hmem
      (t.engine.asyncManager.resultRx ++ [(task.nodeId, task.future)])
    refine ⟨?_, ?_⟩
    · simp only [Threads.completeStep, owing, heq, List.map_append, List.map_singleton]
      rwa [← List.append_assoc]
    · rw [haccount, lined, hheld]
      simp only [Threads.completeStep, lined, heq]
      rw [AsyncManager.resultsOf, AsyncManager.resultsOf, ← valuesOf, ← valuesOf, valuesOf_append]
      simp only [List.append_assoc]

theorem Serving.notifyStep (h : t.Serving given drained) :
    t.notifyStep.Serving given drained := by
  unfold Threads.notifyStep
  simp only
  split
  · refine ⟨⟨h.wf.task_known, h.wf.result_known, h.wf.queue_own, h.wf.handle_lt, h.wf.handle_own,
      h.wf.group_lt⟩, h.ungrouped, fun n hq => ?_⟩
    obtain ⟨⟨⟨hheld, hpend⟩, hone, hun⟩, haccount⟩ := h.inOrder n hq
    exact ⟨⟨⟨hheld, hpend⟩, hone, hun⟩, haccount⟩
  · exact h

/-! ## The loop -/

theorem Serving.drainResult (h : t.Serving given drained) {updated : List NodeId}
    {results : List (NodeId × V)} {shouldShutdown : Bool}
    (hpc : t.loop = .drainingResults updated results shouldShutdown) {result : NodeId × V}
    {resultRx : List (NodeId × V)} (hrx : t.engine.asyncManager.resultRx = result :: resultRx)
    {taken : Multiset (NodeId × V)} :
    Serving { t with
      engine :=
        { t.engine with asyncManager := { t.engine.asyncManager with resultRx := resultRx } }
      drained := taken
      loop := .drainingResults updated (results ++ [result]) shouldShutdown }
      given (drained ++ [result]) := by
  refine ⟨⟨h.wf.task_known, fun r hr => h.wf.result_known r ?_, h.wf.queue_own, h.wf.handle_lt,
    h.wf.handle_own, h.wf.group_lt⟩, h.ungrouped, fun n hq => ?_⟩
  · rw [hrx]
    exact List.mem_cons_of_mem _ hr
  · obtain ⟨⟨⟨hheld, hpend⟩, hone, hun⟩, haccount⟩ := h.inOrder n hq
    have howing : (results ++ [result]).map Prod.fst ++ resultRx.map Prod.fst = t.owing := by
      rw [owing, hpc, hrx]
      simp [LoopPc.due]
    refine ⟨?_, ?_⟩
    · simp only [owing, LoopPc.due, howing]
      exact ⟨⟨hheld, hpend⟩, hone, hun⟩
    · have hresults : t.engine.asyncManager.resultsOf n =
          valuesOf [result] n ++ valuesOf resultRx n := by
        rw [AsyncManager.resultsOf, hrx, ← valuesOf, ← valuesOf_append]
        rfl
      rw [haccount]
      simp only [lined, hresults, hpc, valuesOf_append, List.append_assoc]
      rfl

theorem Serving.processCompletion (h : t.Serving given drained) {id : NodeId}
    {completed updated : List NodeId} {results : List (NodeId × V)} {shouldShutdown : Bool}
    (hpc : t.loop = .completing (id :: completed) updated results shouldShutdown) :
    Serving { t with
      engine :=
        { t.engine with asyncManager := t.engine.asyncManager.processCompletion id }
      loop := .completing completed updated results shouldShutdown } given drained := by
  have hprofile := AsyncManager.SameProfile.processCompletion t.engine.asyncManager id
  refine ⟨h.wf.processCompletion id, h.ungrouped.processCompletion id, fun n hq => ?_⟩
  have hq' : t.engine.asyncManager.Queues n := fun p hp => hq p (by rwa [hprofile.policyOf])
  obtain ⟨hserial, haccount⟩ := h.inOrder n hq'
  refine ⟨?_, ?_⟩
  · simp only [owing, LoopPc.due, hprofile.resultRx]
    rw [owing, hpc] at hserial
    exact hserial.processCompletion h.wf h.ungrouped hq'
  · rw [haccount, lined, hpc]
    simp only [lined, AsyncManager.resultsOf, hprofile.resultRx,
      AsyncManager.heldOf_processCompletion h.wf h.ungrouped.filled id]
    rfl

/-- A cycle gives out futures, which it will spawn. -/
theorem Serving.execute (h : t.Serving given drained) (o : CycleOrder) {updated : List NodeId}
    {results : List (NodeId × V)} {shouldShutdown : Bool}
    (hpc : t.loop = .completing [] updated results shouldShutdown) :
    (t.execute o updated results shouldShutdown).Serving
      (given ++ futures (t.execute o updated results shouldShutdown).loop.spawns) drained := by
  obtain ⟨-, ⟨-, -, hm⟩, -, -⟩ := execute_frame t o updated results shouldShutdown
  have hdue : (t.execute o updated results shouldShutdown).loop.due = t.loop.due := by
    rw [hpc]
    unfold Threads.execute
    simp only
    split
    · exact LoopPc.due_nextPc shouldShutdown
    · rfl
  refine ⟨by rw [hm]; exact h.wf, by rw [hm]; exact h.ungrouped, fun n hq => ?_⟩
  rw [hm] at hq
  obtain ⟨hserial, haccount⟩ := h.inOrder n hq
  refine ⟨?_, ?_⟩
  · rw [owing, hdue, hm]
    exact hserial
  · rw [lined, hpc] at haccount
    rw [valuesOf_append, haccount, lined, hm]
    simp only [LoopPc.spawns, futures, List.map_nil, valuesOf_nil, List.append_nil,
      List.append_assoc]

theorem Serving.spawn (h : t.Serving given drained) {s : AsyncSpawn V} {spawns : List (AsyncSpawn V)}
    {metrics : CycleMetrics} {shouldShutdown : Bool}
    (hpc : t.loop = .spawning (s :: spawns) metrics shouldShutdown) :
    Serving { t with
      engine := t.engine.spawnAsyncWork [s]
      loop := .spawning spawns metrics shouldShutdown } given drained := by
  have howing : owing { t with
      engine := t.engine.spawnAsyncWork [s]
      loop := .spawning spawns metrics shouldShutdown } = t.owing := by
    rw [owing, owing, hpc]
    simp only [spawnAsyncWork, List.foldl_cons, List.foldl_nil, AsyncManager.resultRx_spawn,
      LoopPc.due]
  refine ⟨h.wf.spawn _ _ _ _, h.ungrouped.spawn _ _ _ _, fun n hq => ?_⟩
  -- a policy is recorded once, so a node that queues after the spawn queued before it
  have hq' : t.engine.asyncManager.Queues n :=
    fun p hp => hq p (AsyncManager.policyOf_spawn_of_some hp _ _ _ _)
  obtain ⟨hserial, haccount⟩ := h.inOrder n hq'
  have hresults : (t.engine.spawnAsyncWork [s]).asyncManager.resultsOf n =
      t.engine.asyncManager.resultsOf n := by
    simp only [spawnAsyncWork, List.foldl_cons, List.foldl_nil, AsyncManager.resultsOf,
      AsyncManager.resultRx_spawn]
  have hfutures : valuesOf (futures (s :: spawns)) n =
      (if s.nodeId = n then [s.future] else []) ++ valuesOf (futures spawns) n := by
    rw [← valuesOf_singleton, ← valuesOf_append]
    rfl
  rw [lined, hpc] at haccount
  by_cases hn : s.nodeId = n
  · have hqueue : (t.engine.asyncManager.stateOr n s.policy s.groupId).policy = .queue := by
      refine hq _ ?_
      rw [spawnAsyncWork, List.foldl_cons, List.foldl_nil, AsyncManager.policyOf_spawn,
        AsyncManager.record, AsyncManager.policyOf_setState, if_pos hn.symm, hn]
    obtain ⟨hserial', hheld⟩ :=
      hserial.spawn h.wf h.ungrouped s.policy s.groupId hqueue s.future
    rw [← hn] at hserial' hheld
    refine ⟨by rw [howing]; exact hn ▸ hserial', ?_⟩
    rw [haccount, lined, hresults]
    simp only [LoopPc.spawns, hfutures, if_pos hn, spawnAsyncWork, List.foldl_cons, List.foldl_nil]
    rw [← hn, hheld]
    simp only [List.append_assoc]
  · obtain ⟨hserial', hheld⟩ := hserial.spawn_of_ne h.wf (Ne.symm hn) s.future s.policy s.groupId
    refine ⟨by rw [howing]; exact hserial', ?_⟩
    rw [haccount, lined, hresults]
    simp only [LoopPc.spawns, hfutures, if_neg hn, spawnAsyncWork, List.foldl_cons, List.foldl_nil,
      hheld, List.nil_append]

theorem Serving.loopStep (h : t.Serving given drained) (hawake : t.Awake) (o : CycleOrder) :
    (t.loopStep o).Serving (given ++ t.gives (.loop o)) (drained ++ t.drainsResult (.loop o)) := by
  unfold Threads.loopStep gives drainsResult
  cases hpc : t.loop with
  | blocked =>
    simp only [List.append_nil]
    split
    · exact h.congr rfl (by rw [hpc]; rfl) (by rw [hpc]; rfl)
    · exact h
  | collecting collected =>
    simp only [List.append_nil]
    split <;> exact h.congr rfl (by rw [hpc]; rfl) (by rw [hpc]; rfl)
  | processing commands hasUpdates shouldShutdown =>
    simp only [List.append_nil]
    cases commands with
    -- handling a command leaves the async manager as it is
    | cons c commands =>
      obtain ⟨-, -, hm, -⟩ := EventLoop.handle_channels
        ⟨t.engine, [], hasUpdates, shouldShutdown⟩ (by rw [hawake.bridge]; rfl) c
      exact h.congr hm (by rw [hpc]; rfl) (by rw [hpc]; rfl)
    | nil =>
      cases hasUpdates with
      | true =>
        exact h.congr (shrinks_drainPendingRemovals t.engine).asyncManager (by rw [hpc]; rfl)
          (by rw [hpc]; rfl)
      | false =>
        obtain ⟨-, -, -, hspawns⟩ := @LoopPc.nextPc_parts V shouldShutdown
        exact h.congr rfl (by rw [hpc]; exact LoopPc.due_nextPc _) (by rw [hspawns, hpc]; rfl)
  | sending outbox replies commands hasUpdates shouldShutdown =>
    simp only [List.append_nil]
    cases outbox <;> exact h.congr rfl (by rw [hpc]; rfl) (by rw [hpc]; rfl)
  | drainingSources updated shouldShutdown =>
    simp only [List.append_nil]
    split <;> exact h.congr rfl (by rw [hpc]; rfl) (by rw [hpc]; rfl)
  | drainingResults updated results shouldShutdown =>
    simp only [List.append_nil]
    cases hrx : t.engine.asyncManager.resultRx with
    | nil =>
      rw [List.head?_nil, Option.toList_none, List.append_nil]
      exact h.congr rfl (by rw [hpc]; rfl) (by rw [hpc]; rfl)
    | cons result resultRx => exact h.drainResult hpc hrx
  | completing completed updated results shouldShutdown =>
    simp only [List.append_nil]
    cases completed with
    | cons id completed =>
      simp only [List.append_nil]
      exact h.processCompletion hpc
    | nil => exact h.execute o hpc
  | spawning spawns metrics shouldShutdown =>
    simp only [List.append_nil]
    cases spawns with
    | cons s spawns => exact h.spawn hpc
    | nil =>
      obtain ⟨-, -, -, hspawns⟩ := @LoopPc.nextPc_parts V shouldShutdown
      exact h.congr rfl (by rw [hpc]; exact LoopPc.due_nextPc _) (by rw [hspawns, hpc]; rfl)
  | stopped => simpa only [List.append_nil] using h

theorem Serving.apply (h : t.Serving given drained) (hawake : t.Awake) (m : Move V) :
    (t.apply m).Serving (given ++ t.gives m) (drained ++ t.drainsResult m) := by
  cases m with
  | loop o => exact h.loopStep hawake o
  | complete id =>
    simp only [gives, drainsResult, List.append_nil]
    exact h.completeStep id
  | notify =>
    simp only [gives, drainsResult, List.append_nil]
    exact h.notifyStep
  | bridge =>
    simp only [gives, drainsResult, List.append_nil, Threads.apply, bridgeStep]
    split
    · split
      · exact h.congr rfl rfl rfl
      · exact h
    · exact h.congr rfl rfl rfl
    · exact h.congr rfl rfl rfl
  | dropHandle nodeIds =>
    simp only [gives, drainsResult, List.append_nil, Threads.apply]
    split
    · exact h
    · exact h.congr rfl rfl rfl
  | send | updateSource | merge | shutdown =>
    simp only [gives, drainsResult, List.append_nil]
    exact h.congr rfl rfl rfl

theorem serving_run (ms : List (Move V)) :
    (run ms).Serving (Runs.trace apply gives init ms) (Runs.trace apply drainsResult init ms) := by
  have h : (run ms).Awake ∧ (run ms).Serving (Runs.trace apply gives init ms)
      (Runs.trace apply drainsResult init ms) :=
    Runs.trace_induction (I := fun (t : Threads V) l l' => t.Awake ∧ t.Serving l l') (fun _ _ => True)
      (fun _ m _ _ h _ => ⟨h.1.apply m, h.2.apply h.1 m⟩) ⟨.init, .init⟩
      (.of_forall fun _ _ => trivial)
  exact h.2

end Threads

end ReactiveGraph
