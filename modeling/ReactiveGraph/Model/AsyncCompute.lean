import ReactiveGraph.Model.Graph

/-!
# Async computations: tasks, policies, concurrency groups

`AsyncManager` owns a tokio runtime and the receiving end of a result channel. `spawn` starts a
task, or parks its future behind the node's earlier one (`queue`) or behind a full group;
`drainResults` takes what the finished tasks have sent and lets parked work move up.

**The runtime.** A `Task` runs from the moment it is spawned until it completes or is aborted; when
that is, is up to the environment (`complete`). A task makes two sends, its result and then the
notification: after the first it is past its last await point, so it no longer runs and an `abort`
finds nothing to stop; the second is owed (`notifying`) until it happens. Task ids stand for join
handles and are never reused. The sleep of a debounced task is part of its running.

**An abort takes effect at once here.** In tokio it takes effect at the task's next await point, so
a task that is being polled for the last time goes on and sends. That task is not in this file:
`PolledSystem`, in `Proof/AsyncPolls.lean`, adds the last polls on top of the manager as it stands,
and whatever is said of aborted tasks is said there. The manager's own code is the same in both,
since it never asks whether an abort stopped anything.

**Futures** have a type `F` of their own. Nothing here looks inside one: a task that completes sends
its future on, so in the engine `F` is the type of values, and a theorem about the manager alone may
take the futures to be numbers and ask in which order they come out. A future that panics or never
completes is a task that the environment does not let complete.

**What a branch of the source shares is shared here.** `try_spawn` and `spawn_debounced` differ in
the sleep and in nothing else (`startWithin`), the `latestWins` and `debounce` arms of `spawn` in
which of the two they end with (`cancelExisting`). Slots are counted down with saturation, as
natural subtraction does.
-/

namespace ReactiveGraph

variable {F : Type*}

/-! ## The runtime -/

/-- Stands for a join handle. -/
abbrev TaskId := ℕ

/-- A spawned task: what it runs for, what it will send, and what it was given when it was started.
The sleep decides nothing but how long the task takes, which is not the model's to say. -/
structure Task (F : Type*) where
  id : TaskId
  nodeId : NodeId
  future : F
  /-- The sleep before the future is polled, in milliseconds. -/
  delay : Option ℕ
  /-- Whether the task holds a clone of the notifier. -/
  notifies : Bool

/-- The tokio runtime, as far as the manager can tell: which tasks run, and which handle comes next.
The two proofs say that a handle names one task, so `abort` stops one at most. -/
structure Runtime (F : Type*) where
  running : List (Task F)
  nextTask : TaskId
  /-- Tasks that have sent their result and not yet the notification. -/
  notifying : ℕ
  nodup : (running.map Task.id).Nodup
  fresh : ∀ task ∈ running, task.id < nextTask

namespace Runtime

def new : Runtime F := ⟨[], 0, 0, List.nodup_nil, by simp⟩

/-- Start a task; its handle is the runtime's `nextTask`. -/
def spawn (rt : Runtime F) (nodeId : NodeId) (future : F) (delay : Option ℕ) (notifies : Bool) :
    Runtime F where
  running := rt.running ++ [⟨rt.nextTask, nodeId, future, delay, notifies⟩]
  nextTask := rt.nextTask + 1
  notifying := rt.notifying
  nodup := by
    rw [List.map_append, List.nodup_append]
    refine ⟨rt.nodup, List.nodup_singleton _, ?_⟩
    rintro a ha b hb rfl
    obtain ⟨task, htask, rfl⟩ := List.mem_map.mp ha
    exact absurd (List.mem_singleton.mp hb) (Nat.ne_of_lt (rt.fresh task htask))
  fresh task htask := by
    rcases List.mem_append.mp htask with htask | htask
    · exact (rt.fresh task htask).trans (Nat.lt_succ_self _)
    · rw [List.mem_singleton.mp htask]
      exact Nat.lt_succ_self _

/-- The runtime without a task; nothing happens when the task is not running. -/
def remove (rt : Runtime F) (id : TaskId) : Runtime F where
  running := rt.running.filter (·.id ≠ id)
  nextTask := rt.nextTask
  notifying := rt.notifying
  nodup := rt.nodup.sublist (List.filter_sublist.map _)
  fresh task htask := rt.fresh task (List.mem_of_mem_filter htask)

/-- `handle.abort()`: stops a task that has not completed, and does nothing to one that has. See the
head of the file for a task that is in its last poll. -/
def abort (rt : Runtime F) (handle : TaskId) : Runtime F := rt.remove handle

/-- The task has made its first send; the second is owed if it holds a notifier. It holds one if the
manager had one when the task was started, not if one is set later. -/
def finish (rt : Runtime F) (task : Task F) : Runtime F :=
  { rt.remove task.id with
    notifying := if task.notifies then rt.notifying + 1 else rt.notifying }

/-- The task of a handle, as long as it runs. -/
def find (rt : Runtime F) (id : TaskId) : Option (Task F) := rt.running.find? (·.id = id)

end Runtime

/-! ## The manager -/

/-- What the manager keeps of a node from its first spawn on. Policy and group are those of the
first spawn; nothing ever removes the state, not even the node's removal from the graph. -/
structure AsyncNodeState (F : Type*) where
  policy : AsyncPolicy
  inFlight : Option TaskId
  groupId : Option ℕ
  pending : List F

/-- A future that waits for a slot. It does not say whether it was to be debounced: when it gets its
slot it is started without the sleep. -/
structure QueuedWork (F : Type*) where
  nodeId : NodeId
  future : F

/-- A group: its limit, the slots it counts as taken, and what waits for one, the oldest first. -/
structure ConcurrencyGroupState (F : Type*) where
  maxConcurrent : ℕ
  inFlight : ℕ
  queue : List (QueuedWork F)

/-- Manages async compute execution, policies, and concurrency groups. The notifier is there or not;
whom it notifies is the event loop's affair. -/
structure AsyncManager (F : Type*) where
  runtime : Runtime F
  /-- Sent on the result channel and not received yet. -/
  resultRx : List (NodeId × F)
  nodeStates : FinMap NodeId (AsyncNodeState F)
  groups : FinMap ℕ (ConcurrencyGroupState F)
  nextGroupId : ℕ
  /-- Whether a notifier is set. -/
  notifier : Bool

/-- The node's own part of a completion: its handle is forgotten, and under `queue` its next pending
future comes out. Whether the handle is that of the task that completed is not asked. -/
def AsyncNodeState.settle (state : AsyncNodeState F) : AsyncNodeState F × Option F :=
  if state.policy = .queue then
    ({ state with inFlight := none, pending := state.pending.tail }, state.pending.head?)
  else ({ state with inFlight := none }, none)

/-- The policies that cancel what is in flight. -/
def AsyncPolicy.cancels : AsyncPolicy → Bool
  | .latestWins => true
  | .queue => false
  | .debounce _ => true

namespace AsyncManager

def new : AsyncManager F := ⟨.new, [], ∅, ∅, 0, false⟩

def setNotifier (m : AsyncManager F) : AsyncManager F := { m with notifier := true }

/-- `node_states.insert(id, state)`, and likewise for groups. -/
def setState (m : AsyncManager F) (id : NodeId) (state : AsyncNodeState F) : AsyncManager F :=
  { m with nodeStates := m.nodeStates.insert id state }

def setGroup (m : AsyncManager F) (gid : ℕ) (group : ConcurrencyGroupState F) : AsyncManager F :=
  { m with groups := m.groups.insert gid group }

/-- Group ids count up, so a new group is never one that some node already names. -/
def createGroup (m : AsyncManager F) (maxConcurrent : ℕ) : AsyncManager F × ℕ :=
  ({ m.setGroup m.nextGroupId ⟨maxConcurrent, 0, []⟩ with nextGroupId := m.nextGroupId + 1 },
    m.nextGroupId)

/-- Start a task for the node and keep its handle in the node's state, if the node has one. -/
def start (m : AsyncManager F) (nodeId : NodeId) (future : F) (delay : Option ℕ) :
    AsyncManager F :=
  let m' := { m with runtime := m.runtime.spawn nodeId future delay m.notifier }
  match m.nodeStates.get nodeId with
  | some state => m'.setState nodeId { state with inFlight := some m.runtime.nextTask }
  | none => m'

def spawnRaw (m : AsyncManager F) (nodeId : NodeId) (future : F) : AsyncManager F :=
  m.start nodeId future none

/-- The concurrency group a node was first spawned with, as far as that group exists. A group id
that no `create_group` gave out limits nothing. -/
def groupOf (m : AsyncManager F) (nodeId : NodeId) : Option (ℕ × ConcurrencyGroupState F) :=
  ((m.nodeStates.get nodeId).bind AsyncNodeState.groupId).bind fun gid =>
    (m.groups.get gid).map (gid, ·)

/-- Start the node's future if its group has a free slot, which it then takes, or if it has no
group; else put it at the end of the group's queue. -/
def startWithin (m : AsyncManager F) (nodeId : NodeId) (future : F) (delay : Option ℕ) :
    AsyncManager F :=
  match m.groupOf nodeId with
  | some (gid, group) =>
    if group.inFlight ≥ group.maxConcurrent then
      m.setGroup gid { group with queue := group.queue ++ [⟨nodeId, future⟩] }
    else
      (m.setGroup gid { group with inFlight := group.inFlight + 1 }).start nodeId future delay
  | none => m.start nodeId future delay

def trySpawn (m : AsyncManager F) (nodeId : NodeId) (future : F) : AsyncManager F :=
  m.startWithin nodeId future none

def spawnDebounced (m : AsyncManager F) (nodeId : NodeId) (future : F) (duration : ℕ) :
    AsyncManager F := m.startWithin nodeId future (some duration)

/-- Take one from a group's count of tasks in flight. At zero it stays at zero, and the slot that
was not there is not missed. -/
def releaseSlot (m : AsyncManager F) (gid : ℕ) : AsyncManager F :=
  match m.groups.get gid with
  | some group => m.setGroup gid { group with inFlight := group.inFlight - 1 }
  | none => m

/-- The step that `latestWins` and `debounce` share: abort the task whose handle the node's state
holds, if it holds one, and free the slot in its group. The handle may be that of a task which has
completed and is not drained yet; its slot is then freed here and once more when it is drained. -/
def cancelExisting (m : AsyncManager F) (nodeId : NodeId) (state : AsyncNodeState F) :
    AsyncManager F :=
  match state.inFlight with
  | some handle =>
    let m' := { m with runtime := m.runtime.abort handle }.setState nodeId
      { state with inFlight := none }
    match state.groupId with
    -- freed whether or not the abort found a running task
    | some gid => m'.releaseSlot gid
    | none => m'
  | none => m

/-- The node's state, made from the arguments of the call when the node has none yet. -/
def stateOr (m : AsyncManager F) (nodeId : NodeId) (policy : AsyncPolicy)
    (groupId : Option ℕ) : AsyncNodeState F :=
  (m.nodeStates.get nodeId).getD ⟨policy, none, groupId, []⟩

/-- Spawn an async computation for a node, respecting its policy and concurrency group: those the
node was first spawned with, whatever later calls pass. -/
def spawn (m : AsyncManager F) (nodeId : NodeId) (future : F) (policy : AsyncPolicy)
    (groupId : Option ℕ) : AsyncManager F :=
  let state := m.stateOr nodeId policy groupId
  let m := m.setState nodeId state
  match state.policy with
  | .latestWins => (m.cancelExisting nodeId state).trySpawn nodeId future
  | .queue =>
    if state.inFlight.isSome then
      m.setState nodeId { state with pending := state.pending ++ [future] }
    else m.trySpawn nodeId future
  | .debounce duration => (m.cancelExisting nodeId state).spawnDebounced nodeId future duration

/-- The loop of `try_spawn_from_group_queue`; an iteration takes one from the queue. So the queue's
length is fuel enough, and the loop ends before that when the slots are taken. -/
def spawnFromQueue (gid : ℕ) : ℕ → AsyncManager F → AsyncManager F
  | 0, m => m
  | n + 1, m =>
    match m.groups.get gid with
    | some ⟨maxConcurrent, inFlight, work :: queue⟩ =>
      if inFlight < maxConcurrent then
        -- started through `spawn_raw`: the slot is taken here, and a sleep is not asked for
        spawnFromQueue gid n
          ((m.setGroup gid ⟨maxConcurrent, inFlight + 1, queue⟩).spawnRaw work.nodeId work.future)
      else m
    | _ => m

def trySpawnFromGroupQueue (m : AsyncManager F) (gid : ℕ) : AsyncManager F :=
  match m.groups.get gid with
  | some group => m.spawnFromQueue gid group.queue.length
  | none => m

/-- The group's part: the slot is free, and queued work may take it, before the node's own next
future is tried. -/
def settleGroup (m : AsyncManager F) (groupId : Option ℕ) : AsyncManager F :=
  match groupId with
  | some gid => (m.releaseSlot gid).trySpawnFromGroupQueue gid
  | none => m

/-- One completed task is done with: the node first, then its group, then the future that came out
of the node's own queue, if one did. -/
def processCompletion (m : AsyncManager F) (completedId : NodeId) : AsyncManager F :=
  match m.nodeStates.get completedId with
  | none => m
  | some state =>
    let m := (m.setState completedId state.settle.1).settleGroup state.groupId
    -- after the group queue has moved up, so a full group parks this future once more
    match state.settle.2 with
    | some future => m.trySpawn completedId future
    | none => m

/-- Drain completed async results and manage queues. All results are taken off the channel before
the first is processed; no task can complete in between that would be seen. -/
def drainResults (m : AsyncManager F) : AsyncManager F × List (NodeId × F) :=
  ((m.resultRx.map Prod.fst).foldl processCompletion { m with resultRx := [] }, m.resultRx)

/-- The number of tasks that the group counts as in flight; none for a group that does not exist. It
is the account and not the tasks: after a double release it is below what runs. -/
def groupInFlight (m : AsyncManager F) (gid : ℕ) : ℕ :=
  ((m.groups.get gid).map ConcurrencyGroupState.inFlight).getD 0

/-! ## Steps of the tasks -/

/-- A running task completes: it sends its result and stops running. The only step here that the
manager does not take itself. -/
def complete (m : AsyncManager F) (id : TaskId) : AsyncManager F :=
  match m.runtime.find id with
  | some task =>
    { m with
      runtime := m.runtime.finish task
      resultRx := m.resultRx ++ [(task.nodeId, task.future)] }
  | none => m

end AsyncManager

end ReactiveGraph
