import ReactiveGraph.Model.Engine

/-!
# The manager does not look inside a future

Two managers that started alike and were asked for the same things, one with futures and the other
with what a function makes of them, stay alike (`Maps`): the same tasks run under the same handles,
the same futures wait in the same places, the same slots are taken. The manager is generic in the
type of a future and never looks at one, and this says so of every operation.

A proof may therefore mark every future with whatever it wants to know of it later, follow the
marked futures, and say of the real manager, which has the futures without the marks, what it found.
`Proof/Lives.lean` marks futures with the number of their spawn, since two equal futures of a node
could not be told apart, and with the policy and the group the node had then.

Each operation has its lemma here, `Maps` before and `Maps` after, with the same node and the future
on the other side mapped. They are read from left to right only: whatever a marked manager can do,
the manager without marks does too. The proofs go through the operation branch by branch; the branch
taken is the same on both sides, because it depends on handles, counts and policies, which the map
leaves as they are.
-/

namespace ReactiveGraph

variable {F G : Type*} {f : F → G}

def Task.map (f : F → G) (task : Task F) : Task G :=
  ⟨task.id, task.nodeId, f task.future, task.delay, task.notifies⟩

def AsyncNodeState.map (f : F → G) (state : AsyncNodeState F) : AsyncNodeState G :=
  ⟨state.policy, state.inFlight, state.groupId, state.pending.map f⟩

def QueuedWork.map (f : F → G) (work : QueuedWork F) : QueuedWork G :=
  ⟨work.nodeId, f work.future⟩

def ConcurrencyGroupState.map (f : F → G) (group : ConcurrencyGroupState F) :
    ConcurrencyGroupState G :=
  ⟨group.maxConcurrent, group.inFlight, group.queue.map (QueuedWork.map f)⟩

namespace AsyncManager

variable {m : AsyncManager F} {m' : AsyncManager G}

/-- `m'` is `m` with `f` applied to every future. Everything that decides what the manager does next
is the same in both: the handles, the policies, the counts and the limits. -/
structure Maps (f : F → G) (m : AsyncManager F) (m' : AsyncManager G) : Prop where
  running : m'.runtime.running = m.runtime.running.map (Task.map f)
  nextTask : m'.runtime.nextTask = m.runtime.nextTask
  notifying : m'.runtime.notifying = m.runtime.notifying
  resultRx : m'.resultRx = m.resultRx.map fun result => (result.1, f result.2)
  nodeStates : ∀ id, m'.nodeStates.get id = (m.nodeStates.get id).map (AsyncNodeState.map f)
  groups : ∀ gid, m'.groups.get gid = (m.groups.get gid).map (ConcurrencyGroupState.map f)
  nextGroupId : m'.nextGroupId = m.nextGroupId
  notifier : m'.notifier = m.notifier

namespace Maps

theorem new : Maps f (new : AsyncManager F) (AsyncManager.new : AsyncManager G) where
  running := rfl
  nextTask := rfl
  notifying := rfl
  resultRx := rfl
  nodeStates id := by simp [AsyncManager.new]
  groups gid := by simp [AsyncManager.new]
  nextGroupId := rfl
  notifier := rfl

theorem setNotifier (h : Maps f m m') : Maps f m.setNotifier m'.setNotifier :=
  ⟨h.running, h.nextTask, h.notifying, h.resultRx, h.nodeStates, h.groups, h.nextGroupId, rfl⟩

theorem setState (h : Maps f m m') (id : NodeId) (state : AsyncNodeState F) :
    Maps f (m.setState id state) (m'.setState id (state.map f)) := by
  refine ⟨h.running, h.nextTask, h.notifying, h.resultRx, fun id' => ?_, h.groups, h.nextGroupId,
    h.notifier⟩
  simp only [AsyncManager.setState, FinMap.get_insert]
  split
  · rfl
  · exact h.nodeStates id'

theorem setGroup (h : Maps f m m') (gid : ℕ) (group : ConcurrencyGroupState F) :
    Maps f (m.setGroup gid group) (m'.setGroup gid (group.map f)) := by
  refine ⟨h.running, h.nextTask, h.notifying, h.resultRx, h.nodeStates, fun gid' => ?_,
    h.nextGroupId, h.notifier⟩
  simp only [AsyncManager.setGroup, FinMap.get_insert]
  split
  · rfl
  · exact h.groups gid'

theorem createGroup (h : Maps f m m') (max : ℕ) :
    Maps f (m.createGroup max).1 (m'.createGroup max).1 := by
  have h' := h.setGroup m.nextGroupId ⟨max, 0, []⟩
  simp only [AsyncManager.createGroup, h.nextGroupId]
  exact ⟨h'.running, h'.nextTask, h'.notifying, h'.resultRx, h'.nodeStates, h'.groups, rfl,
    h'.notifier⟩

theorem start (h : Maps f m m') (id : NodeId) (future : F) (delay : Option ℕ) :
    Maps f (m.start id future delay) (m'.start id (f future) delay) := by
  have hrun : Maps f { m with runtime := m.runtime.spawn id future delay m.notifier }
      { m' with runtime := m'.runtime.spawn id (f future) delay m'.notifier } := by
    refine ⟨?_, ?_, h.notifying, h.resultRx, h.nodeStates, h.groups, h.nextGroupId, h.notifier⟩
    · simp only [Runtime.spawn, h.running, h.nextTask, h.notifier, List.map_append]
      rfl
    · simp only [Runtime.spawn, h.nextTask]
  unfold AsyncManager.start
  cases hs : m.nodeStates.get id with
  | none =>
    simp only [h.nodeStates, hs, Option.map_none]
    exact hrun
  | some state =>
    simp only [h.nodeStates, hs, Option.map_some, h.nextTask]
    exact hrun.setState id _

theorem groupOf (h : Maps f m m') (id : NodeId) :
    m'.groupOf id = (m.groupOf id).map fun p => (p.1, p.2.map f) := by
  unfold AsyncManager.groupOf
  rw [h.nodeStates]
  cases m.nodeStates.get id with
  | none => rfl
  | some state =>
    cases hgid : state.groupId with
    | none => simp [AsyncNodeState.map, hgid]
    | some gid =>
      simp only [Option.map_some, Option.bind_some, AsyncNodeState.map, hgid, h.groups,
        Option.map_map]
      rfl

theorem startWithin (h : Maps f m m') (id : NodeId) (future : F) (delay : Option ℕ) :
    Maps f (m.startWithin id future delay) (m'.startWithin id (f future) delay) := by
  unfold AsyncManager.startWithin
  cases hg : m.groupOf id with
  | none =>
    simp only [h.groupOf, hg, Option.map_none]
    exact h.start id future delay
  | some p =>
    obtain ⟨gid, group⟩ := p
    simp only [h.groupOf, hg, Option.map_some, ConcurrencyGroupState.map]
    by_cases hfull : group.inFlight ≥ group.maxConcurrent
    · rw [if_pos hfull, if_pos hfull]
      have h' := h.setGroup gid { group with queue := group.queue ++ [⟨id, future⟩] }
      simp only [ConcurrencyGroupState.map, List.map_append] at h'
      exact h'
    · rw [if_neg hfull, if_neg hfull]
      exact (h.setGroup gid { group with inFlight := group.inFlight + 1 }).start id future delay

theorem releaseSlot (h : Maps f m m') (gid : ℕ) :
    Maps f (m.releaseSlot gid) (m'.releaseSlot gid) := by
  unfold AsyncManager.releaseSlot
  cases hg : m.groups.get gid with
  | none =>
    simp only [h.groups, hg, Option.map_none]
    exact h
  | some group =>
    simp only [h.groups, hg, Option.map_some]
    exact h.setGroup gid { group with inFlight := group.inFlight - 1 }

/-- Whether a task is the one looked for is seen at its id, which the map leaves alone. -/
theorem filter_running (h : Maps f m m') (id : TaskId) :
    m'.runtime.running.filter (·.id ≠ id) =
      (m.runtime.running.filter (·.id ≠ id)).map (Task.map f) := by
  rw [h.running, List.filter_map]
  rfl

theorem abort (h : Maps f m m') (handle : TaskId) :
    Maps f { m with runtime := m.runtime.abort handle }
      { m' with runtime := m'.runtime.abort handle } :=
  ⟨h.filter_running handle, h.nextTask, h.notifying, h.resultRx, h.nodeStates, h.groups,
    h.nextGroupId, h.notifier⟩

theorem cancelExisting (h : Maps f m m') (id : NodeId) (state : AsyncNodeState F) :
    Maps f (m.cancelExisting id state) (m'.cancelExisting id (state.map f)) := by
  unfold AsyncManager.cancelExisting
  cases hin : state.inFlight with
  | none =>
    simp only [AsyncNodeState.map, hin]
    exact h
  | some handle =>
    have h' := (h.abort handle).setState id { state with inFlight := none }
    simp only [AsyncNodeState.map, hin] at h' ⊢
    cases hgid : state.groupId with
    | none =>
      simp only [hgid] at h' ⊢
      exact h'
    | some gid =>
      simp only [hgid] at h' ⊢
      exact h'.releaseSlot gid

theorem stateOr (h : Maps f m m') (id : NodeId) (policy : AsyncPolicy) (groupId : Option ℕ) :
    m'.stateOr id policy groupId = (m.stateOr id policy groupId).map f := by
  unfold AsyncManager.stateOr
  rw [h.nodeStates]
  cases m.nodeStates.get id with
  | none => rfl
  | some state => rfl

theorem spawn (h : Maps f m m') (id : NodeId) (future : F) (policy : AsyncPolicy)
    (groupId : Option ℕ) :
    Maps f (m.spawn id future policy groupId) (m'.spawn id (f future) policy groupId) := by
  unfold AsyncManager.spawn
  rw [h.stateOr]
  generalize m.stateOr id policy groupId = state
  have hset := h.setState id state
  have hcancel := hset.cancelExisting id state
  cases hpolicy : state.policy with
  | latestWins =>
    simp only [AsyncNodeState.map, hpolicy] at hcancel ⊢
    exact hcancel.startWithin id future none
  | queue =>
    by_cases hin : state.inFlight.isSome
    · have hqueue := hset.setState id { state with pending := state.pending ++ [future] }
      simp only [AsyncNodeState.map, hpolicy, hin, if_true, List.map_append] at hqueue ⊢
      exact hqueue
    · simp only [AsyncNodeState.map, hpolicy, hin] at hset ⊢
      exact hset.startWithin id future none
  | debounce duration =>
    simp only [AsyncNodeState.map, hpolicy] at hcancel ⊢
    exact hcancel.startWithin id future (some duration)

theorem spawnFromQueue (gid n : ℕ) (h : Maps f m m') :
    Maps f (spawnFromQueue gid n m) (AsyncManager.spawnFromQueue gid n m') := by
  induction n generalizing m m' with
  | zero => exact h
  | succ n ih =>
    rw [AsyncManager.spawnFromQueue, AsyncManager.spawnFromQueue]
    match hg : m.groups.get gid with
    | none =>
      simp only [h.groups, hg, Option.map_none]
      exact h
    | some ⟨maxConcurrent, inFlight, []⟩ =>
      simp only [h.groups, hg, Option.map_some, ConcurrencyGroupState.map, List.map_nil]
      exact h
    | some ⟨maxConcurrent, inFlight, work :: queue⟩ =>
      simp only [h.groups, hg, Option.map_some, ConcurrencyGroupState.map, List.map_cons]
      split
      · have hset := h.setGroup gid ⟨maxConcurrent, inFlight + 1, queue⟩
        exact ih (hset.start work.nodeId work.future none)
      · exact h

theorem settleGroup (h : Maps f m m') (groupId : Option ℕ) :
    Maps f (m.settleGroup groupId) (m'.settleGroup groupId) := by
  cases groupId with
  | none => exact h
  | some gid =>
    have h' := h.releaseSlot gid
    simp only [AsyncManager.settleGroup, trySpawnFromGroupQueue]
    cases hg : (m.releaseSlot gid).groups.get gid with
    | none =>
      simp only [h'.groups, hg, Option.map_none]
      exact h'
    | some group =>
      simp only [h'.groups, hg, Option.map_some, ConcurrencyGroupState.map, List.length_map]
      exact h'.spawnFromQueue gid _

theorem settle (state : AsyncNodeState F) :
    (state.map f).settle = (state.settle.1.map f, state.settle.2.map f) := by
  unfold AsyncNodeState.settle
  by_cases hq : state.policy = .queue
  · simp [AsyncNodeState.map, hq, List.map_tail, List.head?_map]
  · simp [AsyncNodeState.map, hq]

theorem processCompletion (h : Maps f m m') (id : NodeId) :
    Maps f (m.processCompletion id) (m'.processCompletion id) := by
  unfold AsyncManager.processCompletion
  cases hs : m.nodeStates.get id with
  | none =>
    simp only [h.nodeStates, hs, Option.map_none]
    exact h
  | some state =>
    have h' := (h.setState id state.settle.1).settleGroup state.groupId
    simp only [h.nodeStates, hs, Option.map_some, settle]
    cases hfuture : state.settle.2 with
    | none =>
      simp only [Option.map_none]
      exact h'
    | some future =>
      simp only [Option.map_some]
      exact h'.startWithin id future none

theorem drainResults (h : Maps f m m') :
    Maps f m.drainResults.1 m'.drainResults.1 := by
  have hfold : ∀ (ids : List NodeId) {m : AsyncManager F} {m' : AsyncManager G}, Maps f m m' →
      Maps f (ids.foldl AsyncManager.processCompletion m)
        (ids.foldl AsyncManager.processCompletion m') := by
    intro ids
    induction ids with
    | nil => exact fun h => h
    | cons id ids ih => exact fun h => ih (h.processCompletion id)
  have hids : m'.resultRx.map Prod.fst = m.resultRx.map Prod.fst := by
    rw [h.resultRx, List.map_map]
    rfl
  unfold AsyncManager.drainResults
  rw [hids]
  exact hfold _ ⟨h.running, h.nextTask, h.notifying, rfl, h.nodeStates, h.groups, h.nextGroupId,
    h.notifier⟩

theorem complete (h : Maps f m m') (id : TaskId) : Maps f (m.complete id) (m'.complete id) := by
  have hfind : m'.runtime.find id = (m.runtime.find id).map (Task.map f) := by
    unfold Runtime.find
    rw [h.running, List.find?_map]
    rfl
  unfold AsyncManager.complete
  cases ht : m.runtime.find id with
  | none =>
    simp only [hfind, ht, Option.map_none]
    exact h
  | some task =>
    simp only [hfind, ht, Option.map_some]
    refine ⟨h.filter_running task.id, h.nextTask, ?_, ?_, h.nodeStates, h.groups, h.nextGroupId,
      h.notifier⟩
    · simp only [Runtime.finish, Task.map, h.notifying]
    · simp only [h.resultRx, List.map_append]
      rfl

end Maps

end AsyncManager

end ReactiveGraph
