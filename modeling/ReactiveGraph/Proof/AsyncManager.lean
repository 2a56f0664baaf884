import ReactiveGraph.Model.AsyncCompute

/-!
# What the operations of `AsyncManager` do

Each operation is described once, through what the rest of the development reads of a manager: the
running tasks, the undrained results, the node states and the groups.

Two views of one node carry most proofs: `tasksOf n`, its running tasks, and `waitingOf n`, its
futures in the queue of its group. `load n` is how many there are of both.

`WF` is what ties the maps to the tasks. It says that a task, a result or a piece of queued work
belongs to a node the manager knows, that queued work waits in its own node's group, and that a
handle names a task of the node that holds it — if it names a running task at all. Nothing in it
says that a handle names *the* running task of its node: that is what the policies hope for, and
what the theorems about them have to find out.

**How the file is ordered.** As the operations call each other: writing a state or a group, starting
a task, releasing a slot, cancelling, starting within a group, moving up from a queue, completing,
draining, spawning. For each there is what it leaves alone, stated field by field for the
simplifier, what it does to the two views, and that it keeps `WF`. Where an operation has branches
there is one lemma that lists them (`startWithin_cases`, `spawn_of_cancels`, `spawn_of_queue`), and
later proofs go by that list and not by the definition.

**The two loops have rules**: what survives one promotion survives a queue's moving up
(`spawnFromQueue_induction`), and what survives one completion survives a drain
(`drainResults_induction`). Everything said of a whole drain, here and in the files about policies,
is said through them.

Nothing here is about runs, or about any one policy's promise.
-/

namespace ReactiveGraph

variable {F : Type*}

/-! ## The runtime -/

namespace Runtime

@[simp] theorem running_spawn (rt : Runtime F) (n : NodeId) (f : F) (d : Option ℕ) (b : Bool) :
    (rt.spawn n f d b).running = rt.running ++ [⟨rt.nextTask, n, f, d, b⟩] := rfl

@[simp] theorem running_abort (rt : Runtime F) (h : TaskId) :
    (rt.abort h).running = rt.running.filter (·.id ≠ h) := rfl

@[simp] theorem running_finish (rt : Runtime F) (task : Task F) :
    (rt.finish task).running = rt.running.filter (·.id ≠ task.id) := rfl

@[simp] theorem nextTask_spawn (rt : Runtime F) (n : NodeId) (f : F) (d : Option ℕ) (b : Bool) :
    (rt.spawn n f d b).nextTask = rt.nextTask + 1 := rfl

@[simp] theorem nextTask_abort (rt : Runtime F) (h : TaskId) :
    (rt.abort h).nextTask = rt.nextTask := rfl

@[simp] theorem nextTask_finish (rt : Runtime F) (task : Task F) :
    (rt.finish task).nextTask = rt.nextTask := rfl

theorem find_some {rt : Runtime F} {id : TaskId} {task : Task F} (h : rt.find id = some task) :
    task ∈ rt.running ∧ task.id = id :=
  ⟨List.mem_of_find?_eq_some h, by simpa using List.find?_some h⟩

/-- A running task is the only one with its id. Handles are never used again, so an abort means one
task. -/
theorem eq_of_id_eq (rt : Runtime F) {s t : Task F} (hs : s ∈ rt.running) (ht : t ∈ rt.running)
    (h : s.id = t.id) : s = t := List.inj_on_of_nodup_map rt.nodup hs ht h

theorem find_of_mem {rt : Runtime F} {task : Task F} (h : task ∈ rt.running) :
    rt.find task.id = some task := by
  cases hf : rt.find task.id with
  | none => exact absurd (List.find?_eq_none.mp hf task h) (by simp)
  | some t =>
    obtain ⟨hmem, hid⟩ := find_some hf
    rw [rt.eq_of_id_eq hmem h hid]

/-- Taking a running task out takes exactly one task out. -/
theorem perm_filter_ne (rt : Runtime F) {task : Task F} (h : task ∈ rt.running) :
    rt.running.Perm (task :: rt.running.filter (·.id ≠ task.id)) := by
  have hnd : rt.running.Nodup := List.Nodup.of_map _ rt.nodup
  refine (List.perm_ext_iff_of_nodup hnd ?_).mpr fun t => ?_
  · exact List.nodup_cons.mpr ⟨by simp, hnd.filter _⟩
  · rw [List.mem_cons, List.mem_filter, decide_eq_true_eq]
    constructor
    · intro ht
      by_cases hid : t.id = task.id
      · exact Or.inl (rt.eq_of_id_eq ht h hid)
      · exact Or.inr ⟨ht, hid⟩
    · rintro (rfl | ⟨ht, -⟩)
      · exact h
      · exact ht

theorem countP_filter_ne (rt : Runtime F) {task : Task F} (h : task ∈ rt.running)
    (p : Task F → Bool) :
    (rt.running.filter (·.id ≠ task.id)).countP p + (if p task then 1 else 0)
      = rt.running.countP p := by
  rw [(rt.perm_filter_ne h).countP_eq, List.countP_cons]

end Runtime

namespace AsyncManager

/-! ## Views of a manager -/

/-- The running tasks of a node, oldest first. -/
def tasksOf (m : AsyncManager F) (n : NodeId) : List (Task F) :=
  m.runtime.running.filter (·.nodeId = n)

/-- The futures of a node in the queue of its group, oldest first. The group is the recorded one;
work of the node in any other queue would not be seen, and `WF` says that there is none. -/
def waitingOf (m : AsyncManager F) (n : NodeId) : List F :=
  match m.groupOf n with
  | some (_, group) => (group.queue.filter (·.nodeId = n)).map QueuedWork.future
  | none => []

/-- How much of a node's work is queued in its group or running. Pending futures, parked behind an
earlier one of their own node, are not counted: they are nobody's load yet. -/
def load (m : AsyncManager F) (n : NodeId) : ℕ := (m.tasksOf n).length + (m.waitingOf n).length

/-- The group id recorded for a node. -/
def groupIdOf (m : AsyncManager F) (n : NodeId) : Option ℕ :=
  (m.nodeStates.get n).bind AsyncNodeState.groupId

/-- The policy recorded for a node. -/
def policyOf (m : AsyncManager F) (n : NodeId) : Option AsyncPolicy :=
  (m.nodeStates.get n).map AsyncNodeState.policy

theorem groupOf_eq (m : AsyncManager F) (n : NodeId) :
    m.groupOf n = (m.groupIdOf n).bind fun gid => (m.groups.get gid).map (gid, ·) := rfl

theorem groupOf_eq_some {m : AsyncManager F} {n : NodeId} {gid : ℕ}
    {group : ConcurrencyGroupState F} :
    m.groupOf n = some (gid, group) ↔
      m.groupIdOf n = some gid ∧ m.groups.get gid = some group := by
  rw [groupOf_eq]
  constructor
  · intro h
    obtain ⟨g, hg, h⟩ := Option.bind_eq_some_iff.mp h
    obtain ⟨grp, hgrp, heq⟩ := Option.map_eq_some_iff.mp h
    obtain ⟨rfl, rfl⟩ := Prod.mk.inj heq
    exact ⟨hg, hgrp⟩
  · rintro ⟨hg, hgrp⟩
    rw [hg, Option.bind_some, hgrp, Option.map_some]

theorem waitingOf_of_get {m : AsyncManager F} {n : NodeId} {gid : ℕ}
    {group : ConcurrencyGroupState F} (h : m.groupIdOf n = some gid)
    (hg : m.groups.get gid = some group) :
    m.waitingOf n = (group.queue.filter (·.nodeId = n)).map QueuedWork.future := by
  rw [waitingOf, groupOf_eq_some.mpr ⟨h, hg⟩]

/-! ## Well-formed managers -/

/-- What ties the maps to the tasks; see the head of the file. -/
structure WF (m : AsyncManager F) : Prop where
  task_known : ∀ task ∈ m.runtime.running, task.nodeId ∈ m.nodeStates.keys
  result_known : ∀ r ∈ m.resultRx, r.1 ∈ m.nodeStates.keys
  queue_own : ∀ gid group, m.groups.get gid = some group → ∀ work ∈ group.queue,
    m.groupIdOf work.nodeId = some gid
  handle_lt : ∀ n state h, m.nodeStates.get n = some state → state.inFlight = some h →
    h < m.runtime.nextTask
  handle_own : ∀ n state h, m.nodeStates.get n = some state → state.inFlight = some h →
    ∀ task ∈ m.runtime.running, task.id = h → task.nodeId = n
  group_lt : ∀ gid ∈ m.groups.keys, gid < m.nextGroupId

theorem WF.new : WF (new : AsyncManager F) := by
  refine ⟨?_, ?_, ?_, ?_, ?_, ?_⟩ <;> simp [AsyncManager.new, Runtime.new]

/-! ## Writing a state or a group -/

section Set

variable (m : AsyncManager F) (n : NodeId) (state : AsyncNodeState F) (gid : ℕ)
  (group : ConcurrencyGroupState F)

@[simp] theorem runtime_setState : (m.setState n state).runtime = m.runtime := rfl
@[simp] theorem resultRx_setState : (m.setState n state).resultRx = m.resultRx := rfl
@[simp] theorem groups_setState : (m.setState n state).groups = m.groups := rfl
@[simp] theorem nextGroupId_setState : (m.setState n state).nextGroupId = m.nextGroupId := rfl
@[simp] theorem tasksOf_setState : (m.setState n state).tasksOf = m.tasksOf := rfl

@[simp] theorem nodeStates_setState :
    (m.setState n state).nodeStates = m.nodeStates.insert n state := rfl

@[simp] theorem runtime_setGroup : (m.setGroup gid group).runtime = m.runtime := rfl
@[simp] theorem resultRx_setGroup : (m.setGroup gid group).resultRx = m.resultRx := rfl
@[simp] theorem nodeStates_setGroup : (m.setGroup gid group).nodeStates = m.nodeStates := rfl
@[simp] theorem nextGroupId_setGroup : (m.setGroup gid group).nextGroupId = m.nextGroupId := rfl
@[simp] theorem tasksOf_setGroup : (m.setGroup gid group).tasksOf = m.tasksOf := rfl
@[simp] theorem groupIdOf_setGroup : (m.setGroup gid group).groupIdOf = m.groupIdOf := rfl
@[simp] theorem policyOf_setGroup : (m.setGroup gid group).policyOf = m.policyOf := rfl

@[simp] theorem groups_setGroup : (m.setGroup gid group).groups = m.groups.insert gid group := rfl

theorem groupIdOf_setState (n' : NodeId) :
    (m.setState n state).groupIdOf n' = if n' = n then state.groupId else m.groupIdOf n' := by
  simp only [groupIdOf, nodeStates_setState, FinMap.get_insert]
  split <;> rfl

theorem policyOf_setState (n' : NodeId) :
    (m.setState n state).policyOf n' = if n' = n then some state.policy else m.policyOf n' := by
  simp only [policyOf, nodeStates_setState, FinMap.get_insert]
  split <;> rfl

end Set

variable {m : AsyncManager F}

theorem groupIdOf_of_get {n : NodeId} {state : AsyncNodeState F}
    (h : m.nodeStates.get n = some state) : m.groupIdOf n = state.groupId := by
  simp [groupIdOf, h]

theorem policyOf_of_get {n : NodeId} {state : AsyncNodeState F}
    (h : m.nodeStates.get n = some state) : m.policyOf n = some state.policy := by
  simp [policyOf, h]

/-- Overwriting a node's state with one that keeps its group leaves every group id as it was. -/
theorem groupIdOf_setState_of_eq {n : NodeId} {state : AsyncNodeState F}
    (h : m.groupIdOf n = state.groupId) : (m.setState n state).groupIdOf = m.groupIdOf := by
  funext n'
  rw [groupIdOf_setState]
  split
  · next hn => rw [hn, h]
  · rfl

theorem groupIdOf_setState_of_get {n : NodeId} {state state' : AsyncNodeState F}
    (hs : m.nodeStates.get n = some state) (h : state'.groupId = state.groupId) :
    (m.setState n state').groupIdOf = m.groupIdOf :=
  groupIdOf_setState_of_eq (by rw [groupIdOf_of_get hs, h])

theorem policyOf_setState_of_eq {n : NodeId} {state : AsyncNodeState F}
    (h : m.policyOf n = some state.policy) : (m.setState n state).policyOf = m.policyOf := by
  funext n'
  rw [policyOf_setState]
  split
  · next hn => rw [hn, h]
  · rfl

theorem policyOf_setState_of_get {n : NodeId} {state state' : AsyncNodeState F}
    (hs : m.nodeStates.get n = some state) (h : state'.policy = state.policy) :
    (m.setState n state').policyOf = m.policyOf :=
  policyOf_setState_of_eq (by rw [policyOf_of_get hs, h])

/-- `waitingOf` reads the groups and the group ids, and nothing else. -/
theorem waitingOf_congr {m' : AsyncManager F} (hg : m'.groups = m.groups)
    (hid : m'.groupIdOf = m.groupIdOf) : m'.waitingOf = m.waitingOf := by
  funext n
  simp only [waitingOf, groupOf_eq, hg, hid]

/-- A handle for a node's state: it has been handed out, and it names no other node's task. -/
def Handle (m : AsyncManager F) (n : NodeId) (h : TaskId) : Prop :=
  h < m.runtime.nextTask ∧ ∀ task ∈ m.runtime.running, task.id = h → task.nodeId = n

theorem WF.handle (hw : m.WF) {n : NodeId} {state : AsyncNodeState F} {h : TaskId}
    (hs : m.nodeStates.get n = some state) (hh : state.inFlight = some h) : m.Handle n h :=
  ⟨hw.handle_lt n state h hs hh, hw.handle_own n state h hs hh⟩

theorem WF.setState (hw : m.WF) {n : NodeId} {state : AsyncNodeState F}
    (hid : ∀ gid, m.groupIdOf n = some gid → state.groupId = some gid)
    (hh : ∀ h, state.inFlight = some h → m.Handle n h) : (m.setState n state).WF where
  task_known task ht := by
    rw [nodeStates_setState, FinMap.keys_insert]
    exact Finset.mem_insert_of_mem (hw.task_known task ht)
  result_known r hr := by
    rw [nodeStates_setState, FinMap.keys_insert]
    exact Finset.mem_insert_of_mem (hw.result_known r hr)
  queue_own gid group hg work hwork := by
    have hown := hw.queue_own gid group hg work hwork
    rw [groupIdOf_setState]
    split
    · next heq => exact hid gid (heq ▸ hown)
    · exact hown
  handle_lt n' st h hs hst := by
    obtain ⟨-, rfl⟩ | ⟨-, hs⟩ := FinMap.get_insert_eq_some.mp hs
    · exact (hh h hst).1
    · exact hw.handle_lt n' st h hs hst
  handle_own n' st h hs hst := by
    obtain ⟨rfl, rfl⟩ | ⟨-, hs⟩ := FinMap.get_insert_eq_some.mp hs
    · exact (hh h hst).2
    · exact hw.handle_own n' st h hs hst
  group_lt := hw.group_lt

theorem WF.setGroup (hw : m.WF) {gid : ℕ} {group : ConcurrencyGroupState F}
    (hq : ∀ work ∈ group.queue, m.groupIdOf work.nodeId = some gid)
    (hlt : gid < m.nextGroupId) : (m.setGroup gid group).WF where
  task_known := hw.task_known
  result_known := hw.result_known
  queue_own gid' group' hg work hwork := by
    obtain ⟨rfl, rfl⟩ | ⟨-, hg⟩ := FinMap.get_insert_eq_some.mp hg
    · exact hq work hwork
    · exact hw.queue_own gid' group' hg work hwork
  handle_lt := hw.handle_lt
  handle_own := hw.handle_own
  group_lt gid' hg := by
    rw [groups_setGroup, FinMap.keys_insert, Finset.mem_insert] at hg
    rcases hg with rfl | hg
    · exact hlt
    · exact hw.group_lt gid' hg

/-- Changing a group's count alone. -/
theorem WF.setGroup_inFlight (hw : m.WF) {gid : ℕ} {group : ConcurrencyGroupState F}
    (hg : m.groups.get gid = some group) (k : ℕ) :
    (m.setGroup gid { group with inFlight := k }).WF :=
  hw.setGroup (hw.queue_own gid group hg) (hw.group_lt gid (FinMap.mem_keys_of_get hg))

theorem WF.known_of_waiting (hw : m.WF) {gid : ℕ} {group : ConcurrencyGroupState F}
    (hg : m.groups.get gid = some group) {work : QueuedWork F} (hwork : work ∈ group.queue) :
    work.nodeId ∈ m.nodeStates.keys := by
  have := hw.queue_own gid group hg work hwork
  obtain ⟨state, hs, -⟩ := Option.bind_eq_some_iff.mp this
  exact FinMap.mem_keys_of_get hs

/-! ## Starting a task -/

section Start

variable (m : AsyncManager F) (n : NodeId) (f : F) (d : Option ℕ)

@[simp] theorem runtime_start :
    (m.start n f d).runtime = m.runtime.spawn n f d m.notifier := by
  unfold start
  split <;> rfl

@[simp] theorem resultRx_start : (m.start n f d).resultRx = m.resultRx := by
  unfold start
  split <;> rfl

@[simp] theorem groups_start : (m.start n f d).groups = m.groups := by
  unfold start
  split <;> rfl

@[simp] theorem nextGroupId_start : (m.start n f d).nextGroupId = m.nextGroupId := by
  unfold start
  split <;> rfl

/-- Only the node's own state changes: it gets the new handle. -/
theorem get_nodeStates_start (n' : NodeId) :
    (m.start n f d).nodeStates.get n' = if n' = n
      then (m.nodeStates.get n).map ({ · with inFlight := some m.runtime.nextTask })
      else m.nodeStates.get n' := by
  unfold start
  split
  · next state hs =>
    simp only [nodeStates_setState, FinMap.get_insert, hs, Option.map_some]
  · next hs =>
    simp only [hs, Option.map_none]
    split
    · next heq => rw [heq, hs]
    · rfl

@[simp] theorem groupIdOf_start : (m.start n f d).groupIdOf = m.groupIdOf := by
  funext n'
  simp only [groupIdOf, get_nodeStates_start]
  split
  · next heq => rw [heq]; cases m.nodeStates.get n <;> rfl
  · rfl

@[simp] theorem policyOf_start : (m.start n f d).policyOf = m.policyOf := by
  funext n'
  simp only [policyOf, get_nodeStates_start]
  split
  · next heq => rw [heq]; cases m.nodeStates.get n <;> rfl
  · rfl

@[simp] theorem waitingOf_start : (m.start n f d).waitingOf = m.waitingOf :=
  waitingOf_congr (groups_start m n f d) (groupIdOf_start m n f d)

theorem tasksOf_start (n' : NodeId) :
    (m.start n f d).tasksOf n' = if n = n'
      then m.tasksOf n' ++ [⟨m.runtime.nextTask, n, f, d, m.notifier⟩] else m.tasksOf n' := by
  simp only [tasksOf, runtime_start, Runtime.running_spawn, List.filter_append,
    List.filter_singleton]
  split <;> simp_all

end Start

theorem keys_nodeStates_start (m : AsyncManager F) (n : NodeId) (f : F) (d : Option ℕ) :
    (m.start n f d).nodeStates.keys = m.nodeStates.keys := by
  ext n'
  rw [FinMap.mem_keys, FinMap.mem_keys, get_nodeStates_start]
  split
  · next heq => rw [heq, Option.isSome_map]
  · rfl

theorem WF.start (hw : m.WF) {n : NodeId} (hn : n ∈ m.nodeStates.keys) (f : F) (d : Option ℕ) :
    (m.start n f d).WF where
  task_known task ht := by
    rw [keys_nodeStates_start]
    rw [runtime_start, Runtime.running_spawn, List.mem_append, List.mem_singleton] at ht
    rcases ht with ht | rfl
    · exact hw.task_known task ht
    · exact hn
  result_known r hr := by
    rw [keys_nodeStates_start]
    exact hw.result_known r (by simpa using hr)
  queue_own gid group hg work hwork := by
    rw [groupIdOf_start]
    exact hw.queue_own gid group (by simpa using hg) work hwork
  handle_lt n' st h hs hst := by
    rw [runtime_start, Runtime.nextTask_spawn]
    rw [get_nodeStates_start] at hs
    split at hs
    · obtain ⟨st', -, rfl⟩ := Option.map_eq_some_iff.mp hs
      obtain rfl := Option.some.inj hst
      exact Nat.lt_succ_self _
    · exact (hw.handle_lt n' st h hs hst).trans (Nat.lt_succ_self _)
  handle_own n' st h hs hst task ht hid := by
    rw [runtime_start, Runtime.running_spawn, List.mem_append, List.mem_singleton] at ht
    rw [get_nodeStates_start] at hs
    -- The new task's id is fresh: no old task has it, and no old handle names it.
    split at hs
    · next heq =>
      obtain ⟨st', -, rfl⟩ := Option.map_eq_some_iff.mp hs
      obtain rfl := Option.some.inj hst
      rcases ht with ht | rfl
      · exact absurd hid (Nat.ne_of_lt (m.runtime.fresh task ht))
      · exact heq.symm
    · rcases ht with ht | rfl
      · exact hw.handle_own n' st h hs hst task ht hid
      · exact absurd hid.symm (Nat.ne_of_lt (hw.handle_lt n' st h hs hst))
  group_lt := by simpa using hw.group_lt

/-! ## Slots and queues -/

/-- After a group was set its members find their work in the new queue, and nobody else notices.
Membership is by the recorded group id, not by having work there. -/
theorem waitingOf_setGroup (m : AsyncManager F) (gid : ℕ) (group : ConcurrencyGroupState F)
    (n : NodeId) : (m.setGroup gid group).waitingOf n =
      if m.groupIdOf n = some gid then (group.queue.filter (·.nodeId = n)).map QueuedWork.future
      else m.waitingOf n := by
  split
  · next hid => exact waitingOf_of_get (m := m.setGroup gid _) hid (FinMap.get_insert_self _ _ _)
  · next hid =>
    simp only [waitingOf, groupOf_eq, groupIdOf_setGroup, groups_setGroup]
    cases hgid : m.groupIdOf n with
    | none => rfl
    | some gid' =>
      have hne : gid' ≠ gid := fun heq => hid (heq ▸ hgid)
      rw [Option.bind_some, Option.bind_some, FinMap.get_insert, if_neg hne]

/-- A group that keeps its queue leaves what every node has waiting as it was. -/
theorem waitingOf_setGroup_inFlight {gid : ℕ} {group : ConcurrencyGroupState F}
    (hg : m.groups.get gid = some group) (k : ℕ) :
    (m.setGroup gid { group with inFlight := k }).waitingOf = m.waitingOf := by
  funext n
  rw [waitingOf_setGroup]
  split
  · next hid => rw [waitingOf_of_get hid hg]
  · rfl

section Slot

variable (m : AsyncManager F) (gid : ℕ)

@[simp] theorem runtime_releaseSlot : (m.releaseSlot gid).runtime = m.runtime := by
  unfold releaseSlot
  split <;> rfl

@[simp] theorem resultRx_releaseSlot : (m.releaseSlot gid).resultRx = m.resultRx := by
  unfold releaseSlot
  split <;> rfl

@[simp] theorem nodeStates_releaseSlot : (m.releaseSlot gid).nodeStates = m.nodeStates := by
  unfold releaseSlot
  split <;> rfl

@[simp] theorem tasksOf_releaseSlot : (m.releaseSlot gid).tasksOf = m.tasksOf := by
  funext n
  simp only [tasksOf, runtime_releaseSlot]

@[simp] theorem groupIdOf_releaseSlot : (m.releaseSlot gid).groupIdOf = m.groupIdOf := by
  funext n
  simp only [groupIdOf, nodeStates_releaseSlot]

@[simp] theorem policyOf_releaseSlot : (m.releaseSlot gid).policyOf = m.policyOf := by
  funext n
  simp only [policyOf, nodeStates_releaseSlot]

theorem get_groups_releaseSlot (gid' : ℕ) :
    (m.releaseSlot gid).groups.get gid' = if gid' = gid
      then (m.groups.get gid).map fun group => { group with inFlight := group.inFlight - 1 }
      else m.groups.get gid' := by
  unfold releaseSlot
  split
  · next group hg => simp only [groups_setGroup, FinMap.get_insert, hg, Option.map_some]
  · next hg =>
    simp only [hg, Option.map_none]
    split
    · next heq => rw [heq, hg]
    · rfl

@[simp] theorem waitingOf_releaseSlot : (m.releaseSlot gid).waitingOf = m.waitingOf := by
  unfold releaseSlot
  split
  · next group hg => exact waitingOf_setGroup_inFlight hg _
  · rfl

end Slot

theorem WF.releaseSlot (hw : m.WF) (gid : ℕ) : (m.releaseSlot gid).WF := by
  unfold AsyncManager.releaseSlot
  split
  · next group hg => exact hw.setGroup_inFlight hg _
  · exact hw

/-! ## Cancelling -/

theorem WF.abort (hw : m.WF) (h : TaskId) :
    WF { m with runtime := m.runtime.abort h } where
  task_known task ht := hw.task_known task (List.mem_of_mem_filter ht)
  result_known := hw.result_known
  queue_own := hw.queue_own
  handle_lt := hw.handle_lt
  handle_own n st h' hs hst task ht := hw.handle_own n st h' hs hst task (List.mem_of_mem_filter ht)
  group_lt := hw.group_lt

section Cancel

variable {n : NodeId} {state : AsyncNodeState F}

theorem cancelExisting_of_none (h : state.inFlight = none) :
    m.cancelExisting n state = m := by
  rw [cancelExisting, h]

@[simp] theorem resultRx_cancelExisting :
    (m.cancelExisting n state).resultRx = m.resultRx := by
  unfold cancelExisting
  split
  · split <;> simp
  · rfl

theorem running_cancelExisting : (m.cancelExisting n state).runtime.running =
    m.runtime.running.filter fun task => state.inFlight ≠ some task.id := by
  unfold cancelExisting
  split
  · next handle hh =>
    have : ∀ task : Task F, (some handle ≠ some task.id) ↔ task.id ≠ handle := by
      intro task
      rw [Ne, Option.some.injEq, eq_comm]
    split <;> simp [hh, eq_comm]
  · next hh => simp [hh]

theorem groupIdOf_cancelExisting (hs : m.nodeStates.get n = some state) :
    (m.cancelExisting n state).groupIdOf = m.groupIdOf := by
  unfold cancelExisting
  split
  · next handle hh =>
    have hset : ({ m with runtime := m.runtime.abort handle }.setState n
        { state with inFlight := none }).groupIdOf = m.groupIdOf :=
      groupIdOf_setState_of_get (m := { m with runtime := _ }) hs rfl
    split
    · rw [groupIdOf_releaseSlot, hset]
    · exact hset
  · rfl

theorem policyOf_cancelExisting (hs : m.nodeStates.get n = some state) :
    (m.cancelExisting n state).policyOf = m.policyOf := by
  unfold cancelExisting
  split
  · next handle hh =>
    have hset : ({ m with runtime := m.runtime.abort handle }.setState n
        { state with inFlight := none }).policyOf = m.policyOf :=
      policyOf_setState_of_get (m := { m with runtime := _ }) hs rfl
    split
    · rw [policyOf_releaseSlot, hset]
    · exact hset
  · rfl

theorem waitingOf_cancelExisting (hs : m.nodeStates.get n = some state) :
    (m.cancelExisting n state).waitingOf = m.waitingOf := by
  unfold cancelExisting
  split
  · next handle hh =>
    have hset : ({ m with runtime := m.runtime.abort handle }.setState n
        { state with inFlight := none }).waitingOf = m.waitingOf :=
      waitingOf_congr rfl (groupIdOf_setState_of_get (m := { m with runtime := _ }) hs rfl)
    split
    · rw [waitingOf_releaseSlot, hset]
    · exact hset
  · rfl

/-- Cancelling stops the node's task that the handle names, and no other node's task. This is what
the clauses of `WF` about handles are for. -/
theorem tasksOf_cancelExisting_of_ne (hw : m.WF) (hs : m.nodeStates.get n = some state)
    {n' : NodeId} (hn : n' ≠ n) : (m.cancelExisting n state).tasksOf n' = m.tasksOf n' := by
  rw [tasksOf, running_cancelExisting, List.filter_filter, tasksOf]
  refine List.filter_congr fun task ht => ?_
  by_cases htn : task.nodeId = n'
  · have : state.inFlight ≠ some task.id := fun hh =>
      hn (htn ▸ (hw.handle hs hh).2 task ht rfl)
    simp [htn, this]
  · simp [htn]

theorem tasksOf_cancelExisting_self : (m.cancelExisting n state).tasksOf n =
    (m.tasksOf n).filter fun task => state.inFlight ≠ some task.id := by
  rw [tasksOf, running_cancelExisting, List.filter_filter, tasksOf, List.filter_filter]
  exact List.filter_congr fun task _ => Bool.and_comm _ _

theorem WF.cancelExisting (hw : m.WF) (hs : m.nodeStates.get n = some state) :
    (m.cancelExisting n state).WF := by
  unfold AsyncManager.cancelExisting
  split
  · next handle hh =>
    have hid : m.groupIdOf n = state.groupId := groupIdOf_of_get hs
    have hset : WF ({ m with runtime := m.runtime.abort handle }.setState n
        { state with inFlight := none }) :=
      (hw.abort handle).setState (fun gid hgid => hid.symm.trans hgid) (by simp)
    split
    · exact hset.releaseSlot _
    · exact hset
  · exact hw

end Cancel

/-! ## Starting within a group -/

theorem load_start (m : AsyncManager F) (n : NodeId) (f : F) (d : Option ℕ) (n' : NodeId) :
    (m.start n f d).load n' = if n' = n then m.load n' + 1 else m.load n' := by
  simp only [load, waitingOf_start, tasksOf_start]
  by_cases hn : n' = n
  · rw [if_pos hn, if_pos hn.symm, List.length_append, List.length_singleton]
    omega
  · rw [if_neg hn, if_neg (Ne.symm hn)]

/-- The three things `startWithin` can do: start a task without asking anyone, take a slot and start
it, or queue the future. The sleep goes with the first two and is dropped in the third. -/
theorem startWithin_cases (m : AsyncManager F) (n : NodeId) (f : F) (d : Option ℕ) :
    (m.groupOf n = none ∧ m.startWithin n f d = m.start n f d) ∨
    (∃ gid group, m.groupOf n = some (gid, group) ∧ group.inFlight < group.maxConcurrent ∧
      m.startWithin n f d =
        (m.setGroup gid { group with inFlight := group.inFlight + 1 }).start n f d) ∨
    (∃ gid group, m.groupOf n = some (gid, group) ∧ group.maxConcurrent ≤ group.inFlight ∧
      m.startWithin n f d =
        m.setGroup gid { group with queue := group.queue ++ [⟨n, f⟩] }) := by
  unfold startWithin
  split
  · next gid group hg =>
    by_cases hfull : group.inFlight ≥ group.maxConcurrent
    · exact Or.inr (Or.inr ⟨gid, group, hg, hfull, by rw [if_pos hfull]⟩)
    · exact Or.inr (Or.inl ⟨gid, group, hg, by omega, by rw [if_neg hfull]⟩)
  · next hg => exact Or.inl ⟨hg, rfl⟩

section StartWithin

variable (m : AsyncManager F) (n : NodeId) (f : F) (d : Option ℕ)

@[simp] theorem resultRx_startWithin : (m.startWithin n f d).resultRx = m.resultRx := by
  obtain ⟨-, h⟩ | ⟨gid, group, -, -, h⟩ | ⟨gid, group, -, -, h⟩ := m.startWithin_cases n f d <;>
    simp [h]

@[simp] theorem groupIdOf_startWithin : (m.startWithin n f d).groupIdOf = m.groupIdOf := by
  obtain ⟨-, h⟩ | ⟨gid, group, -, -, h⟩ | ⟨gid, group, -, -, h⟩ := m.startWithin_cases n f d <;>
    simp [h]

@[simp] theorem policyOf_startWithin : (m.startWithin n f d).policyOf = m.policyOf := by
  obtain ⟨-, h⟩ | ⟨gid, group, -, -, h⟩ | ⟨gid, group, -, -, h⟩ := m.startWithin_cases n f d <;>
    simp [h]

end StartWithin

theorem tasksOf_startWithin_of_ne (m : AsyncManager F) {n n' : NodeId} (f : F)
    (d : Option ℕ) (hn : n' ≠ n) : (m.startWithin n f d).tasksOf n' = m.tasksOf n' := by
  obtain ⟨-, h⟩ | ⟨gid, group, -, -, h⟩ | ⟨gid, group, -, -, h⟩ := m.startWithin_cases n f d
  · rw [h, tasksOf_start, if_neg (Ne.symm hn)]
  · rw [h, tasksOf_start, if_neg (Ne.symm hn), tasksOf_setGroup]
  · rw [h, tasksOf_setGroup]

theorem waitingOf_enqueue {n : NodeId} {gid : ℕ} {group : ConcurrencyGroupState F}
    (h : m.groupOf n = some (gid, group)) (f : F) (n' : NodeId) :
    (m.setGroup gid { group with queue := group.queue ++ [⟨n, f⟩] }).waitingOf n' =
      if n' = n then m.waitingOf n' ++ [f] else m.waitingOf n' := by
  obtain ⟨hid, hg⟩ := groupOf_eq_some.mp h
  rw [waitingOf_setGroup]
  by_cases hn : n' = n
  · subst hn
    rw [if_pos hid, if_pos rfl, waitingOf_of_get hid hg]
    simp
  · rw [if_neg hn]
    split
    · next hid' =>
      rw [waitingOf_of_get hid' hg]
      simp [Ne.symm hn]
    · rfl

/-- Whatever becomes of it, the future is one more piece of work of its node, and of no other. Which
of the three it was does not show in the load. -/
theorem load_startWithin (m : AsyncManager F) (n : NodeId) (f : F) (d : Option ℕ) (n' : NodeId) :
    (m.startWithin n f d).load n' = if n' = n then m.load n' + 1 else m.load n' := by
  obtain ⟨-, h⟩ | ⟨gid, group, hg, -, h⟩ | ⟨gid, group, hg, -, h⟩ := m.startWithin_cases n f d
  · rw [h, load_start]
  · have hload : (m.setGroup gid { group with inFlight := group.inFlight + 1 }).load = m.load := by
      funext x
      rw [load, tasksOf_setGroup, waitingOf_setGroup_inFlight (groupOf_eq_some.mp hg).2, load]
    rw [h, load_start, hload]
  · rw [h, load, tasksOf_setGroup, waitingOf_enqueue hg, load]
    split
    · rw [List.length_append, List.length_singleton]
      omega
    · rfl

theorem WF.startWithin (hw : m.WF) {n : NodeId} (hn : n ∈ m.nodeStates.keys) (f : F)
    (d : Option ℕ) : (m.startWithin n f d).WF := by
  obtain ⟨-, h⟩ | ⟨gid, group, hg, -, h⟩ | ⟨gid, group, hg, -, h⟩ := m.startWithin_cases n f d
  · rw [h]
    exact hw.start hn f d
  · rw [h]
    exact (hw.setGroup_inFlight (groupOf_eq_some.mp hg).2 _).start hn f d
  · obtain ⟨hid, hg⟩ := groupOf_eq_some.mp hg
    rw [h]
    refine hw.setGroup (fun work hwork => ?_) (hw.group_lt gid (FinMap.mem_keys_of_get hg))
    rcases List.mem_append.mp hwork with hwork | hwork
    · exact hw.queue_own gid group hg work hwork
    · rw [List.mem_singleton.mp hwork]
      exact hid

/-! ## Work moving up from a group's queue -/

/-- **The rule for `trySpawnFromGroupQueue`.** What survives taking the first piece of work out of a
queue with a free slot and starting it survives the loop. The step may use that there was a free
slot and work in the queue. -/
theorem spawnFromQueue_induction {gid : ℕ} {P : AsyncManager F → Prop}
    (step : ∀ m max k work queue, P m → m.groups.get gid = some ⟨max, k, work :: queue⟩ →
      k < max → P ((m.setGroup gid ⟨max, k + 1, queue⟩).start work.nodeId work.future none))
    (n : ℕ) {m : AsyncManager F} (h : P m) : P (m.spawnFromQueue gid n) := by
  induction n generalizing m with
  | zero => exact h
  | succ n ih =>
    rw [spawnFromQueue]
    split
    · next max k work queue hg =>
      split
      · next hlt => exact ih (step m max k work queue h hg hlt)
      · exact h
    · exact h

theorem trySpawnFromGroupQueue_induction {gid : ℕ} {P : AsyncManager F → Prop}
    (step : ∀ m max k work queue, P m → m.groups.get gid = some ⟨max, k, work :: queue⟩ →
      k < max → P ((m.setGroup gid ⟨max, k + 1, queue⟩).start work.nodeId work.future none))
    {m : AsyncManager F} (h : P m) : P (m.trySpawnFromGroupQueue gid) := by
  unfold trySpawnFromGroupQueue
  split
  · exact spawnFromQueue_induction step _ h
  · exact h

section Promote

variable {gid max k : ℕ} {work : QueuedWork F} {queue : List (QueuedWork F)}

theorem WF.promote (hw : m.WF) (hg : m.groups.get gid = some ⟨max, k, work :: queue⟩) :
    ((m.setGroup gid ⟨max, k + 1, queue⟩).start work.nodeId work.future none).WF := by
  refine (hw.setGroup (fun w hmem => ?_) (hw.group_lt gid (FinMap.mem_keys_of_get hg))).start
    (hw.known_of_waiting hg List.mem_cons_self) _ _
  exact hw.queue_own gid _ hg w (List.mem_cons_of_mem _ hmem)

/-- What is at the head of a group's queue is what its node has waiting first. -/
theorem waitingOf_head (hw : m.WF) (hg : m.groups.get gid = some ⟨max, k, work :: queue⟩) (k' : ℕ)
    (n : NodeId) : m.waitingOf n =
      if n = work.nodeId then work.future :: (m.setGroup gid ⟨max, k', queue⟩).waitingOf n
      else (m.setGroup gid ⟨max, k', queue⟩).waitingOf n := by
  rw [waitingOf_setGroup]
  by_cases hn : n = work.nodeId
  · subst hn
    have hown := hw.queue_own gid _ hg work List.mem_cons_self
    rw [if_pos rfl, if_pos hown, waitingOf_of_get hown hg]
    simp
  · rw [if_neg hn]
    split
    · next hid =>
      rw [waitingOf_of_get hid hg, List.filter_cons_of_neg (by simpa using Ne.symm hn)]
    · rfl

/-- Moving up changes no node's load: the work stops waiting and starts running. So a queue's moving
up is invisible to all that is said of loads. -/
theorem load_promote (hw : m.WF) (hg : m.groups.get gid = some ⟨max, k, work :: queue⟩) :
    ((m.setGroup gid ⟨max, k + 1, queue⟩).start work.nodeId work.future none).load = m.load := by
  funext n
  rw [load_start, load, load, tasksOf_setGroup, waitingOf_head hw hg (k + 1) n]
  by_cases hn : n = work.nodeId
  · rw [if_pos hn, if_pos hn, List.length_cons]
    omega
  · rw [if_neg hn, if_neg hn]

end Promote

theorem WF.trySpawnFromGroupQueue (hw : m.WF) (gid : ℕ) : (m.trySpawnFromGroupQueue gid).WF :=
  trySpawnFromGroupQueue_induction (fun _ _ _ _ _ h hg _ => h.promote hg) hw

/-- What a group's queue moving up leaves alone: groups and policies of nodes, which nothing ever
changes once they are recorded, and the results. -/
structure SameProfile (m m' : AsyncManager F) : Prop where
  groupIdOf : m'.groupIdOf = m.groupIdOf
  policyOf : m'.policyOf = m.policyOf
  resultRx : m'.resultRx = m.resultRx

theorem SameProfile.trySpawnFromGroupQueue (m : AsyncManager F) (gid : ℕ) :
    SameProfile m (m.trySpawnFromGroupQueue gid) :=
  trySpawnFromGroupQueue_induction (P := SameProfile m)
    (fun m' _ _ _ _ h _ _ => ⟨by simp [h.groupIdOf], by simp [h.policyOf], by simp [h.resultRx]⟩)
    ⟨rfl, rfl, rfl⟩

theorem load_trySpawnFromGroupQueue (hw : m.WF) (gid : ℕ) :
    (m.trySpawnFromGroupQueue gid).load = m.load :=
  (trySpawnFromGroupQueue_induction (P := fun m' => m'.WF ∧ m'.load = m.load)
    (fun _ _ _ _ _ h hg _ => ⟨h.1.promote hg, (load_promote h.1 hg).trans h.2⟩) ⟨hw, rfl⟩).2

/-! ## Completions -/

theorem SameProfile.refl (m : AsyncManager F) : SameProfile m m := ⟨rfl, rfl, rfl⟩

theorem SameProfile.trans {m₁ m₂ m₃ : AsyncManager F} (h : SameProfile m₁ m₂)
    (h' : SameProfile m₂ m₃) : SameProfile m₁ m₃ :=
  ⟨h'.groupIdOf.trans h.groupIdOf, h'.policyOf.trans h.policyOf, h'.resultRx.trans h.resultRx⟩

theorem SameProfile.startWithin (m : AsyncManager F) (n : NodeId) (f : F) (d : Option ℕ) :
    SameProfile m (m.startWithin n f d) := ⟨by simp, by simp, by simp⟩

theorem mem_keys_iff_policyOf {n : NodeId} : n ∈ m.nodeStates.keys ↔ (m.policyOf n).isSome := by
  rw [FinMap.mem_keys, policyOf, Option.isSome_map]

/-- The nodes a manager knows are those it has a policy for. -/
theorem SameProfile.mem_keys {m' : AsyncManager F} (h : SameProfile m m') {n : NodeId} :
    n ∈ m'.nodeStates.keys ↔ n ∈ m.nodeStates.keys := by
  rw [mem_keys_iff_policyOf, mem_keys_iff_policyOf, h.policyOf]

@[simp] theorem groupId_settle (state : AsyncNodeState F) :
    state.settle.1.groupId = state.groupId := by
  unfold AsyncNodeState.settle
  split <;> rfl

@[simp] theorem policy_settle (state : AsyncNodeState F) :
    state.settle.1.policy = state.policy := by
  unfold AsyncNodeState.settle
  split <;> rfl

@[simp] theorem inFlight_settle (state : AsyncNodeState F) : state.settle.1.inFlight = none := by
  unfold AsyncNodeState.settle
  split <;> rfl

/-- Only under `queue` does a completion start the node's next future. -/
theorem settle_of_ne_queue {state : AsyncNodeState F} (h : state.policy ≠ .queue) :
    state.settle.2 = none := by
  rw [AsyncNodeState.settle, if_neg h]

theorem SameProfile.settleGroup (m : AsyncManager F) (g : Option ℕ) :
    SameProfile m (m.settleGroup g) := by
  cases g with
  | none => exact .refl m
  | some gid =>
    have h := SameProfile.trySpawnFromGroupQueue (m.releaseSlot gid) gid
    refine ⟨h.groupIdOf.trans ?_, h.policyOf.trans ?_, h.resultRx.trans ?_⟩ <;> simp

theorem WF.settleGroup (hw : m.WF) (g : Option ℕ) : (m.settleGroup g).WF := by
  cases g with
  | none => exact hw
  | some gid => exact (hw.releaseSlot gid).trySpawnFromGroupQueue gid

theorem load_settleGroup (hw : m.WF) (g : Option ℕ) : (m.settleGroup g).load = m.load := by
  cases g with
  | none => rfl
  | some gid =>
    rw [settleGroup, load_trySpawnFromGroupQueue (hw.releaseSlot gid)]
    funext n
    simp only [load, tasksOf_releaseSlot, waitingOf_releaseSlot]

section Completion

variable {n : NodeId} {state : AsyncNodeState F}

theorem SameProfile.settle (hs : m.nodeStates.get n = some state) :
    SameProfile m (m.setState n state.settle.1) :=
  ⟨groupIdOf_setState_of_get hs (groupId_settle state),
    policyOf_setState_of_get hs (policy_settle state), rfl⟩

theorem WF.settle (hw : m.WF) (hs : m.nodeStates.get n = some state) :
    (m.setState n state.settle.1).WF :=
  hw.setState (fun gid hid => by rw [groupId_settle, ← groupIdOf_of_get hs, hid]) (by simp)

theorem load_settle (hs : m.nodeStates.get n = some state) :
    (m.setState n state.settle.1).load = m.load := by
  have hwait : (m.setState n state.settle.1).waitingOf = m.waitingOf :=
    waitingOf_congr rfl (SameProfile.settle hs).groupIdOf
  funext n'
  simp only [load, tasksOf_setState, hwait]

/-- A completion of a node the manager knows: the node's part, the group's part, and the node's next
future if one came out. The node's state is the one from before. -/
theorem processCompletion_of_get (hs : m.nodeStates.get n = some state) :
    m.processCompletion n =
      match state.settle.2 with
      | some future =>
        ((m.setState n state.settle.1).settleGroup state.groupId).trySpawn n future
      | none => (m.setState n state.settle.1).settleGroup state.groupId := by
  cases hsettle : state.settle.2 <;> simp only [processCompletion, hs, hsettle]

end Completion

theorem processCompletion_of_none {n : NodeId} (hs : m.nodeStates.get n = none) :
    m.processCompletion n = m := by
  rw [processCompletion, hs]

theorem SameProfile.processCompletion (m : AsyncManager F) (n : NodeId) :
    SameProfile m (m.processCompletion n) := by
  cases hs : m.nodeStates.get n with
  | none => rw [processCompletion_of_none hs]; exact .refl m
  | some state =>
    rw [processCompletion_of_get hs]
    have h := (SameProfile.settle hs).trans (.settleGroup _ state.groupId)
    split
    · exact h.trans (.startWithin _ _ _ _)
    · exact h

theorem WF.processCompletion (hw : m.WF) (n : NodeId) : (m.processCompletion n).WF := by
  cases hs : m.nodeStates.get n with
  | none => rwa [processCompletion_of_none hs]
  | some state =>
    rw [processCompletion_of_get hs]
    have h := (hw.settle hs).settleGroup state.groupId
    have hprof := (SameProfile.settle hs).trans (.settleGroup _ state.groupId)
    split
    · exact h.startWithin (hprof.mem_keys.mpr (FinMap.mem_keys_of_get hs)) _ _
    · exact h

/-- A completion, of whichever node, adds nothing to the load of a node that does not queue: only a
pending future adds to it, and only `queue` has pending futures. -/
theorem load_processCompletion (hw : m.WF) (n : NodeId) {n' : NodeId}
    (hn' : m.policyOf n' ≠ some .queue) : (m.processCompletion n).load n' = m.load n' := by
  cases hs : m.nodeStates.get n with
  | none => rw [processCompletion_of_none hs]
  | some state =>
    have h : ((m.setState n state.settle.1).settleGroup state.groupId).load n' = m.load n' := by
      rw [load_settleGroup (hw.settle hs), load_settle hs]
    rw [processCompletion_of_get hs]
    split
    · next future hf =>
      have hne : n' ≠ n := by
        rintro rfl
        rw [policyOf_of_get hs] at hn'
        rw [settle_of_ne_queue (fun heq => hn' (by rw [heq]))] at hf
        exact absurd hf (by simp)
      rw [trySpawn, load_startWithin, if_neg hne, h]
    · exact h

/-! ## Draining -/

/-- **The rule for `drainResults`.** What holds of the manager with its results taken out and is
kept by each completion holds afterwards. The completions come in the order of the results, and the
rule forgets it. -/
theorem drainResults_induction {P : AsyncManager F → Prop}
    (step : ∀ m n, P m → P (m.processCompletion n)) {m : AsyncManager F}
    (h : P { m with resultRx := [] }) : P m.drainResults.1 := by
  unfold drainResults
  simp only
  generalize { m with resultRx := [] } = m₀ at h
  induction m.resultRx.map Prod.fst generalizing m₀ with
  | nil => exact h
  | cons n ns ih => exact ih _ (step _ _ h)

theorem WF.takeResults (hw : m.WF) : WF { m with resultRx := [] } :=
  { hw with result_known := by simp }

theorem WF.drainResults (hw : m.WF) : m.drainResults.1.WF :=
  drainResults_induction (fun _ n h => h.processCompletion n) hw.takeResults

theorem SameProfile.drainResults (m : AsyncManager F) :
    SameProfile { m with resultRx := [] } m.drainResults.1 :=
  drainResults_induction (P := SameProfile { m with resultRx := [] })
    (fun m' n h => h.trans (.processCompletion m' n)) (.refl _)

theorem load_drainResults (hw : m.WF) {n : NodeId} (hn : m.policyOf n ≠ some .queue) :
    m.drainResults.1.load n = m.load n := by
  refine (drainResults_induction
    (P := fun m' => m'.WF ∧ m'.policyOf n = m.policyOf n ∧ m'.load n = m.load n) ?_
    ⟨hw.takeResults, rfl, rfl⟩).2.2
  rintro m' n' ⟨hw', hp, hl⟩
  refine ⟨hw'.processCompletion n', ?_, ?_⟩
  · rw [(SameProfile.processCompletion m' n').policyOf, hp]
  · rw [load_processCompletion hw' n' (by rwa [hp]), hl]

/-! ## Tasks completing, groups made -/

theorem complete_cases (m : AsyncManager F) (id : TaskId) :
    m.complete id = m ∨ ∃ task ∈ m.runtime.running, task.id = id ∧ m.complete id =
      { m with
        runtime := m.runtime.finish task
        resultRx := m.resultRx ++ [(task.nodeId, task.future)] } := by
  unfold complete
  split
  · next task h =>
    obtain ⟨hmem, hid⟩ := Runtime.find_some h
    exact Or.inr ⟨task, hmem, hid, rfl⟩
  · exact Or.inl rfl

theorem complete_of_mem {task : Task F} (ht : task ∈ m.runtime.running) : m.complete task.id =
    { m with
      runtime := m.runtime.finish task
      resultRx := m.resultRx ++ [(task.nodeId, task.future)] } := by
  simp only [complete, Runtime.find_of_mem ht]

theorem WF.complete (hw : m.WF) (id : TaskId) : (m.complete id).WF := by
  obtain h | ⟨task, ht, -, h⟩ := m.complete_cases id
  · rwa [h]
  · rw [h]
    exact
      { task_known := fun t htm => hw.task_known t (List.mem_of_mem_filter htm)
        result_known := fun r hr => by
          rcases List.mem_append.mp hr with hr | hr
          · exact hw.result_known r hr
          · rw [List.mem_singleton.mp hr]
            exact hw.task_known task ht
        queue_own := hw.queue_own
        handle_lt := hw.handle_lt
        handle_own := fun n st h hs hst t htm =>
          hw.handle_own n st h hs hst t (List.mem_of_mem_filter htm)
        group_lt := hw.group_lt }

theorem policyOf_complete (m : AsyncManager F) (id : TaskId) :
    (m.complete id).policyOf = m.policyOf := by
  obtain h | ⟨task, -, -, h⟩ := m.complete_cases id <;> rw [h]
  rfl

theorem groupIdOf_complete (m : AsyncManager F) (id : TaskId) :
    (m.complete id).groupIdOf = m.groupIdOf := by
  obtain h | ⟨task, -, -, h⟩ := m.complete_cases id <;> rw [h]
  rfl

theorem load_complete_le (m : AsyncManager F) (id : TaskId) (n : NodeId) :
    (m.complete id).load n ≤ m.load n := by
  obtain h | ⟨task, -, -, h⟩ := m.complete_cases id
  · rw [h]
  · have hwait : (m.complete id).waitingOf = m.waitingOf :=
      waitingOf_congr (by rw [h]) (groupIdOf_complete m id)
    have htask : (m.complete id).tasksOf n =
        (m.runtime.running.filter (·.id ≠ task.id)).filter (·.nodeId = n) := by
      rw [h]
      rfl
    rw [load, load, hwait, htask, tasksOf]
    have := (List.filter_sublist (l := m.runtime.running)
      (p := fun t => decide (t.id ≠ task.id))).filter (fun t => decide (t.nodeId = n))
    have := this.length_le
    omega

theorem WF.createGroup (hw : m.WF) (max : ℕ) : (m.createGroup max).1.WF where
  task_known := hw.task_known
  result_known := hw.result_known
  queue_own gid group hg work hwork := by
    obtain ⟨-, rfl⟩ | ⟨-, hg⟩ := FinMap.get_insert_eq_some.mp hg
    · exact absurd hwork List.not_mem_nil
    · exact hw.queue_own gid group hg work hwork
  handle_lt := hw.handle_lt
  handle_own := hw.handle_own
  group_lt gid hg := by
    rw [AsyncManager.createGroup, groups_setGroup, FinMap.keys_insert, Finset.mem_insert] at hg
    rcases hg with rfl | hg
    · exact Nat.lt_succ_self _
    · exact (hw.group_lt gid hg).trans (Nat.lt_succ_self _)

/-- The queue of a new group is as empty as that of a group that does not exist. -/
theorem waitingOf_createGroup (hw : m.WF) (max : ℕ) :
    (m.createGroup max).1.waitingOf = m.waitingOf := by
  have hnew : m.groups.get m.nextGroupId = none :=
    FinMap.notMem_keys.mp fun h => lt_irrefl _ (hw.group_lt _ h)
  have hset : (m.createGroup max).1.waitingOf =
      (m.setGroup m.nextGroupId ⟨max, 0, []⟩).waitingOf := waitingOf_congr rfl rfl
  funext n
  rw [hset, waitingOf_setGroup]
  split
  · next hid =>
    rw [waitingOf, groupOf_eq, hid, Option.bind_some, hnew]
    rfl
  · rfl

theorem load_createGroup (hw : m.WF) (max : ℕ) : (m.createGroup max).1.load = m.load := by
  funext n
  rw [load, load, waitingOf_createGroup hw]
  rfl

/-! ## Spawning -/

section Spawn

variable {n : NodeId} {f : F} {policy : AsyncPolicy} {groupId : Option ℕ}

theorem stateOr_of_get {state : AsyncNodeState F} (hs : m.nodeStates.get n = some state) :
    m.stateOr n policy groupId = state := by
  rw [stateOr, hs, Option.getD_some]

theorem stateOr_of_none (hs : m.nodeStates.get n = none) :
    m.stateOr n policy groupId = ⟨policy, none, groupId, []⟩ := by
  rw [stateOr, hs, Option.getD_none]

/-- What `spawn` does first: give the node a state if it has none. -/
def record (m : AsyncManager F) (n : NodeId) (policy : AsyncPolicy) (groupId : Option ℕ) :
    AsyncManager F := m.setState n (m.stateOr n policy groupId)

theorem get_record : (m.record n policy groupId).nodeStates.get n =
    some (m.stateOr n policy groupId) := FinMap.get_insert_self _ _ _

theorem get_record_of_ne {n' : NodeId} (h : n' ≠ n) :
    (m.record n policy groupId).nodeStates.get n' = m.nodeStates.get n' :=
  FinMap.get_insert_of_ne _ _ h

theorem groupIdOf_record_of_mem (h : n ∈ m.nodeStates.keys) :
    (m.record n policy groupId).groupIdOf = m.groupIdOf := by
  obtain ⟨state, hs⟩ := FinMap.exists_get_of_mem_keys h
  refine groupIdOf_setState_of_eq ?_
  rw [stateOr_of_get hs, groupIdOf_of_get hs]

theorem WF.record (hw : m.WF) (n : NodeId) (policy : AsyncPolicy) (groupId : Option ℕ) :
    (m.record n policy groupId).WF := by
  cases hs : m.nodeStates.get n with
  | none =>
    refine hw.setState (fun gid hid => ?_) (by simp [stateOr_of_none hs])
    rw [groupIdOf, hs] at hid
    exact absurd hid (by simp)
  | some state =>
    refine hw.setState (fun gid hid => ?_) fun h hh => ?_
    · rw [stateOr_of_get hs, ← groupIdOf_of_get hs, hid]
    · rw [stateOr_of_get hs] at hh
      exact hw.handle hs hh

/-- A node that was not known has nothing waiting, so recording it changes nobody's queue. A node
that was known is recorded as it was. -/
theorem waitingOf_record (hw : m.WF) (n : NodeId) (policy : AsyncPolicy) (groupId : Option ℕ) :
    (m.record n policy groupId).waitingOf = m.waitingOf := by
  by_cases hn : n ∈ m.nodeStates.keys
  · exact waitingOf_congr rfl (groupIdOf_record_of_mem hn)
  -- not known: work is queued under its node's own group, so nothing is queued for this one
  · have hid : m.groupIdOf n = none := by
      rw [groupIdOf, FinMap.notMem_keys.mp hn, Option.bind_none]
    funext n'
    by_cases hn' : n' = n
    · subst hn'
      have hold : m.waitingOf n' = [] := by rw [waitingOf, groupOf_eq, hid]; rfl
      rw [hold, waitingOf]
      split
      · next gid group hg =>
        have hempty : group.queue.filter (fun w => decide (w.nodeId = n')) = [] := by
          refine List.filter_eq_nil_iff.mpr fun work hwork heq => ?_
          have := hw.queue_own gid group (groupOf_eq_some.mp hg).2 work hwork
          rw [decide_eq_true_eq.mp heq, hid] at this
          exact absurd this (by simp)
        rw [hempty, List.map_nil]
      · rfl
    · have : (m.record n policy groupId).groupIdOf n' = m.groupIdOf n' := by
        rw [record, groupIdOf_setState, if_neg hn']
      simp only [waitingOf, groupOf_eq, this]
      rfl

theorem load_record (hw : m.WF) (n : NodeId) (policy : AsyncPolicy) (groupId : Option ℕ) :
    (m.record n policy groupId).load = m.load := by
  funext n'
  simp only [load, waitingOf_record hw]
  rfl

/-- Under a cancelling policy `spawn` cancels, then starts or queues the future. `latestWins` and
`debounce` differ in the sleep, which is left open. -/
theorem spawn_of_cancels (h : (m.stateOr n policy groupId).policy.cancels) :
    ∃ d, m.spawn n f policy groupId = ((m.record n policy groupId).cancelExisting n
      (m.stateOr n policy groupId)).startWithin n f d := by
  cases hp : (m.stateOr n policy groupId).policy with
  | latestWins => exact ⟨none, by simp only [spawn, hp]; rfl⟩
  | queue => rw [hp] at h; exact absurd h (by simp [AsyncPolicy.cancels])
  | debounce duration => exact ⟨some duration, by simp only [spawn, hp]; rfl⟩

/-- Under `queue` it parks the future behind the node's earlier one, or starts or queues it. Whether
there is an earlier one is asked of the handle, which a future waiting for a slot does not have. -/
theorem spawn_of_queue (h : (m.stateOr n policy groupId).policy = .queue) :
    m.spawn n f policy groupId = if (m.stateOr n policy groupId).inFlight.isSome then
        (m.record n policy groupId).setState n { m.stateOr n policy groupId with
          pending := (m.stateOr n policy groupId).pending ++ [f] }
      else (m.record n policy groupId).startWithin n f none := by
  unfold spawn
  simp only [h]
  rfl

theorem AsyncPolicy.eq_queue_of_not_cancels {p : AsyncPolicy} (h : ¬ p.cancels) : p = .queue := by
  cases p <;> simp_all [AsyncPolicy.cancels]

theorem WF.spawn (hw : m.WF) (n : NodeId) (f : F) (policy : AsyncPolicy) (groupId : Option ℕ) :
    (m.spawn n f policy groupId).WF := by
  have hrec := hw.record n policy groupId
  by_cases hc : (m.stateOr n policy groupId).policy.cancels
  · obtain ⟨d, h⟩ := spawn_of_cancels (f := f) hc
    rw [h]
    refine (hrec.cancelExisting get_record).startWithin ?_ f d
    rw [mem_keys_iff_policyOf, policyOf_cancelExisting get_record, ← mem_keys_iff_policyOf]
    exact FinMap.mem_keys_of_get get_record
  · rw [spawn_of_queue (AsyncPolicy.eq_queue_of_not_cancels hc)]
    split
    · refine hrec.setState (fun gid hid => ?_) fun h hh => hrec.handle get_record hh
      rw [← hid]
      exact (groupIdOf_of_get get_record).symm
    · exact hrec.startWithin (FinMap.mem_keys_of_get get_record) f none

theorem groupIdOf_spawn : (m.spawn n f policy groupId).groupIdOf =
    (m.record n policy groupId).groupIdOf := by
  by_cases hc : (m.stateOr n policy groupId).policy.cancels
  · obtain ⟨d, h⟩ := spawn_of_cancels (f := f) hc
    rw [h, groupIdOf_startWithin, groupIdOf_cancelExisting get_record]
  · rw [spawn_of_queue (AsyncPolicy.eq_queue_of_not_cancels hc)]
    split
    · exact groupIdOf_setState_of_get get_record rfl
    · rw [groupIdOf_startWithin]

theorem policyOf_spawn : (m.spawn n f policy groupId).policyOf =
    (m.record n policy groupId).policyOf := by
  by_cases hc : (m.stateOr n policy groupId).policy.cancels
  · obtain ⟨d, h⟩ := spawn_of_cancels (f := f) hc
    rw [h, policyOf_startWithin, policyOf_cancelExisting get_record]
  · rw [spawn_of_queue (AsyncPolicy.eq_queue_of_not_cancels hc)]
    split
    · exact policyOf_setState_of_get get_record rfl
    · rw [policyOf_startWithin]

@[simp] theorem resultRx_spawn : (m.spawn n f policy groupId).resultRx = m.resultRx := by
  by_cases hc : (m.stateOr n policy groupId).policy.cancels
  · obtain ⟨d, h⟩ := spawn_of_cancels (f := f) hc
    rw [h, resultRx_startWithin, resultRx_cancelExisting]
    rfl
  · rw [spawn_of_queue (AsyncPolicy.eq_queue_of_not_cancels hc)]
    split
    · rfl
    · rw [resultRx_startWithin]
      rfl

theorem tasksOf_spawn_of_ne (hw : m.WF) {n' : NodeId} (hn : n' ≠ n) :
    (m.spawn n f policy groupId).tasksOf n' = m.tasksOf n' := by
  by_cases hc : (m.stateOr n policy groupId).policy.cancels
  · obtain ⟨d, h⟩ := spawn_of_cancels (f := f) hc
    rw [h, tasksOf_startWithin_of_ne _ _ _ hn,
      tasksOf_cancelExisting_of_ne (hw.record n policy groupId) get_record hn]
    rfl
  · rw [spawn_of_queue (AsyncPolicy.eq_queue_of_not_cancels hc)]
    split
    · rfl
    · rw [tasksOf_startWithin_of_ne _ _ _ hn]
      rfl

/-- Another node's spawn does not touch this one's load. -/
theorem load_spawn_of_ne (hw : m.WF) {n' : NodeId} (hn : n' ≠ n) :
    (m.spawn n f policy groupId).load n' = m.load n' := by
  have hrec := hw.record n policy groupId
  by_cases hc : (m.stateOr n policy groupId).policy.cancels
  · obtain ⟨d, h⟩ := spawn_of_cancels (f := f) hc
    rw [h, load_startWithin, if_neg hn, load, tasksOf_cancelExisting_of_ne hrec get_record hn,
      waitingOf_cancelExisting get_record, ← load, load_record hw]
  · rw [spawn_of_queue (AsyncPolicy.eq_queue_of_not_cancels hc)]
    split
    · have hwait : ((m.record n policy groupId).setState n { m.stateOr n policy groupId with
          pending := (m.stateOr n policy groupId).pending ++ [f] }).waitingOf =
          (m.record n policy groupId).waitingOf :=
        waitingOf_congr rfl (groupIdOf_setState_of_get get_record rfl)
      rw [load, hwait, tasksOf_setState, ← load, load_record hw]
    · rw [load_startWithin, if_neg hn, load_record hw]

end Spawn

end AsyncManager

end ReactiveGraph
