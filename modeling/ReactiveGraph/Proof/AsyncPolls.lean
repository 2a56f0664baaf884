import ReactiveGraph.Proof.AsyncRuns

/-!
# Tasks in their last poll

`abort` stops a task where it awaits. A task that is being polled for the last time has no await
point left: it is still running, and it will send its result whatever happens to its handle. So
whether an abort stops a running task depends on the schedule.

`PolledSystem` has this in the runs. `lastPoll` takes a running task out of the reach of `abort`, at
any moment before it completes; `send` is its send, at any moment after. A run without the two is a
run of `AsyncSystem`, where every abort of a running task stops it.

**The manager is not told.** Its calls are those of `AsyncSystem`, word for word: it aborts the
handle it has, frees the slot, and goes on as if the task had stopped. The tasks in their last poll
are kept beside it, in the order in which they came there, and a send delivers their result as a
completion does. So what was proved of the manager's operations is used here unchanged, and only
statements about what runs have to count the tasks in both places (`running`).

A debounced task that still sleeps could come to its last poll here at once. It has to wake first in
the source; the model leaves out the time, so its runs contain these and others.

**What holds for good**: a well-formed manager stays so (`PolledSystem.WF`), it never forgets a
node, and the policy and the group it applies are those of the node's first trigger
(`profileOf_run`). The last says that a guard on the recorded policy is one on what the node was
first triggered with.
-/

namespace ReactiveGraph

variable {F : Type*}

/-- The two sends of a task that the runtime no longer lists: its result, and the notification,
which is owed from then on. For a task that was aborted in its last poll this is the result that its
node was not to have. -/
def AsyncManager.deliver (m : AsyncManager F) (task : Task F) : AsyncManager F :=
  { m with
    runtime := { m.runtime with
      notifying := if task.notifies then m.runtime.notifying + 1 else m.runtime.notifying }
    resultRx := m.resultRx ++ [(task.nodeId, task.future)] }

structure PolledSystem (F : Type*) extends AsyncSystem F where
  /-- The tasks in their last poll, which the manager's runtime no longer lists. -/
  finishing : List (Task F)

inductive PolledAction (F : Type*) where
  | call (a : AsyncAction F)
  | lastPoll (id : TaskId)
  | send (i : ℕ)

namespace PolledSystem

def init : PolledSystem F := ⟨.init, []⟩

def apply (s : PolledSystem F) : PolledAction F → PolledSystem F
  | .call a => { s with toAsyncSystem := s.toAsyncSystem.apply a }
  | .lastPoll id =>
    match s.manager.runtime.find id with
    | some task =>
      { s with
        manager := { s.manager with runtime := s.manager.runtime.remove id }
        finishing := s.finishing ++ [task] }
    | none => s
  | .send i =>
    match s.finishing[i]? with
    | some task =>
      { s with
        manager := s.manager.deliver task
        finishing := s.finishing.eraseIdx i }
    | none => s

/-- The tasks that run, whether or not an `abort` would stop them. This is what a limit on tasks
that run has to count. -/
def running (s : PolledSystem F) : List (Task F) := s.finishing ++ s.manager.runtime.running

/-- The futures of a node that run. -/
def runningOf (s : PolledSystem F) (n : NodeId) : List F :=
  (s.running.filter (·.nodeId = n)).map Task.future

/-- The futures of a node's tasks in their last poll. -/
def finishingOf (s : PolledSystem F) (n : NodeId) : List F :=
  (s.finishing.filter (·.nodeId = n)).map Task.future

/-- The futures of a node that run, or have completed with the result undrained. -/
def unfinishedOf (s : PolledSystem F) (n : NodeId) : List F :=
  s.manager.resultsOf n ++ s.runningOf n

variable {s : PolledSystem F}

theorem lastPoll_cases (s : PolledSystem F) (id : TaskId) : s.apply (.lastPoll id) = s ∨
    ∃ task ∈ s.manager.runtime.running, s.apply (.lastPoll id) =
      { s with
        manager := { s.manager with runtime := s.manager.runtime.remove task.id }
        finishing := s.finishing ++ [task] } := by
  cases h : s.manager.runtime.find id with
  | none => exact Or.inl (by simp only [apply, h])
  | some task =>
    obtain ⟨hmem, rfl⟩ := Runtime.find_some h
    exact Or.inr ⟨task, hmem, by simp only [apply, h]⟩

/-- A task that goes into its last poll goes on running. -/
theorem running_lastPoll (s : PolledSystem F) (id : TaskId) :
    (s.apply (.lastPoll id)).running.Perm s.running := by
  obtain heq | ⟨task, hmem, heq⟩ := s.lastPoll_cases id
  · rw [heq]
  · rw [heq, running, running, List.append_assoc]
    exact (s.manager.runtime.perm_filter_ne hmem).symm.append_left _

theorem send_cases (s : PolledSystem F) (i : ℕ) : s.apply (.send i) = s ∨
    ∃ task, s.finishing.Perm (task :: s.finishing.eraseIdx i) ∧ s.apply (.send i) =
      { s with
        manager := s.manager.deliver task
        finishing := s.finishing.eraseIdx i } := by
  cases h : s.finishing[i]? with
  | none => exact Or.inl (by simp only [apply, h])
  | some task =>
    obtain ⟨hlt, rfl⟩ := List.getElem?_eq_some_iff.mp h
    exact Or.inr ⟨_, (List.getElem_cons_eraseIdx_perm hlt).symm, by simp only [apply, h]⟩

end PolledSystem

/-! ## Well-formed throughout -/

namespace AsyncManager

variable {m : AsyncManager F}

theorem WF.deliver (hw : m.WF) {task : Task F} (hn : task.nodeId ∈ m.nodeStates.keys) :
    (m.deliver task).WF where
  task_known := hw.task_known
  result_known r hr := by
    rcases List.mem_append.mp hr with hr | hr
    · exact hw.result_known r hr
    · rw [List.mem_singleton.mp hr]
      exact hn
  queue_own := hw.queue_own
  handle_lt := hw.handle_lt
  handle_own := hw.handle_own
  group_lt := hw.group_lt

end AsyncManager

open AsyncManager

/-- The manager is well-formed, and it knows the nodes of the tasks in their last poll. -/
structure PolledSystem.WF (s : PolledSystem F) : Prop where
  manager : s.manager.WF
  known : ∀ task ∈ s.finishing, task.nodeId ∈ s.manager.nodeStates.keys

theorem PolledSystem.WF.init : (PolledSystem.init : PolledSystem F).WF :=
  ⟨AsyncManager.WF.new, by simp [PolledSystem.init]⟩

/-- The policy of a node's first trigger stays. -/
theorem AsyncSystem.policyOf_apply {s : AsyncSystem F} {n : NodeId} {policy : AsyncPolicy}
    (h : s.manager.policyOf n = some policy) (a : AsyncAction F) :
    (s.apply a).manager.policyOf n = some policy := by
  cases a with
  | createGroup max => exact h
  | spawn n' f policy' groupId =>
    rw [AsyncSystem.apply, policyOf_spawn, record, policyOf_setState]
    split
    · next heq =>
      subst heq
      obtain ⟨state, hs, rfl⟩ := Option.map_eq_some_iff.mp h
      rw [stateOr_of_get hs]
    · exact h
  | complete id => rw [AsyncSystem.apply, policyOf_complete, h]
  | drain => rw [AsyncSystem.apply, (SameProfile.drainResults _).policyOf]; exact h

/-- So does its group. -/
theorem AsyncSystem.groupIdOf_apply {s : AsyncSystem F} {n : NodeId} {gid : ℕ}
    (h : s.manager.groupIdOf n = some gid) (a : AsyncAction F) :
    (s.apply a).manager.groupIdOf n = some gid := by
  cases a with
  | createGroup max => exact h
  | spawn n' f policy' groupId =>
    rw [AsyncSystem.apply, groupIdOf_spawn, record, groupIdOf_setState]
    split
    · next heq =>
      subst heq
      obtain ⟨state, hs, hgid⟩ := Option.bind_eq_some_iff.mp h
      rw [stateOr_of_get hs, hgid]
    · exact h
  | complete id => rw [AsyncSystem.apply, groupIdOf_complete, h]
  | drain => rw [AsyncSystem.apply, (SameProfile.drainResults _).groupIdOf]; exact h

/-- A manager never forgets a node. -/
theorem AsyncSystem.mem_keys_apply {s : AsyncSystem F} {n : NodeId}
    (h : n ∈ s.manager.nodeStates.keys) (a : AsyncAction F) :
    n ∈ (s.apply a).manager.nodeStates.keys := by
  rw [mem_keys_iff_policyOf] at h ⊢
  obtain ⟨policy, hp⟩ := Option.isSome_iff_exists.mp h
  rw [policyOf_apply hp, Option.isSome_some]

theorem PolledSystem.WF.apply {s : PolledSystem F} (h : s.WF) (a : PolledAction F) :
    (s.apply a).WF := by
  cases a with
  | call a =>
    exact ⟨AsyncSystem.WF.apply h.manager a,
      fun task ht => AsyncSystem.mem_keys_apply (h.known task ht) a⟩
  | lastPoll id =>
    obtain heq | ⟨task, hmem, heq⟩ := s.lastPoll_cases id
    · rwa [heq]
    · rw [heq]
      refine ⟨h.manager.abort task.id, fun t ht => ?_⟩
      rcases List.mem_append.mp ht with ht | ht
      · exact h.known t ht
      · rw [List.mem_singleton.mp ht]
        exact h.manager.task_known task hmem
  | send i =>
    obtain heq | ⟨task, hperm, heq⟩ := s.send_cases i
    · rwa [heq]
    · rw [heq]
      have htask : task ∈ s.finishing := hperm.mem_iff.mpr List.mem_cons_self
      exact ⟨h.manager.deliver (h.known task htask),
        fun t ht => h.known t (hperm.mem_iff.mpr (List.mem_cons_of_mem _ ht))⟩

/-- The steps outside the manager's calls leave the node states and the groups alone. -/
theorem PolledSystem.nodeStates_lastPoll (s : PolledSystem F) (id : TaskId) :
    (s.apply (.lastPoll id)).manager.nodeStates = s.manager.nodeStates := by
  obtain h | ⟨task, -, h⟩ := s.lastPoll_cases id <;> rw [h]

theorem PolledSystem.nodeStates_send (s : PolledSystem F) (i : ℕ) :
    (s.apply (.send i)).manager.nodeStates = s.manager.nodeStates := by
  obtain h | ⟨task, -, h⟩ := s.send_cases i <;> rw [h]
  rfl

/-- The policy and the group that an action spawns a future of the node with. -/
def PolledAction.profile (n : NodeId) : PolledAction F → Option (AsyncPolicy × Option ℕ)
  | .call (.spawn n' _ policy groupId) => if n' = n then some (policy, groupId) else none
  | _ => none

theorem PolledSystem.profileOf_apply (s : PolledSystem F) (a : PolledAction F) (n : NodeId) :
    (s.apply a).manager.profileOf n = (s.manager.profileOf n).or (a.profile n) := by
  cases a with
  | call a =>
    cases a with
    | spawn n' f policy groupId =>
      simp only [apply, AsyncSystem.apply, profileOf_spawn, PolledAction.profile]
      -- only the node spawned gets an entry, and only if it had none
      by_cases hn : n = n'
      · subst hn
        rw [if_pos rfl, if_pos rfl]
        cases s.manager.profileOf n <;> rfl
      · rw [if_neg hn, if_neg (Ne.symm hn), Option.or_none]
    | createGroup max => exact (Option.or_none).symm
    | complete id =>
      rw [show (PolledAction.call (.complete id) : PolledAction F).profile n = none from rfl,
        Option.or_none]
      exact profileOf_congr (policyOf_complete _ id) (groupIdOf_complete _ id) n
    | drain =>
      have hsame := SameProfile.drainResults s.manager
      rw [show (PolledAction.call .drain : PolledAction F).profile n = none from rfl,
        Option.or_none]
      exact profileOf_congr hsame.policyOf hsame.groupIdOf n
  | lastPoll id =>
    rw [profileOf, nodeStates_lastPoll]
    exact (Option.or_none).symm
  | send i =>
    rw [profileOf, nodeStates_send]
    exact (Option.or_none).symm

/-- **What is recorded of a node is what its first trigger came with**: nothing that happens later
changes the policy or the group. A node that was never triggered has nothing recorded. -/
theorem PolledSystem.profileOf_run (as : List (PolledAction F)) (n : NodeId) :
    (Runs.run apply init as).manager.profileOf n = as.findSome? (PolledAction.profile n) := by
  have hrun : ∀ s : PolledSystem F, (Runs.run apply s as).manager.profileOf n =
      (s.manager.profileOf n).or (as.findSome? (PolledAction.profile n)) := by
    induction as with
    | nil => exact fun s => (Option.or_none).symm
    | cons a as ih =>
      intro s
      rw [Runs.run_cons, ih, profileOf_apply, Option.or_assoc, List.findSome?_cons]
      cases a.profile n <;> rfl
  exact hrun init

/-- So the policy that the manager holds for a node is that of the node's first trigger. Later
triggers may come with another, and are served by the first. -/
theorem PolledSystem.policyOf_run (as : List (PolledAction F)) (n : NodeId) :
    (Runs.run apply init as).manager.policyOf n =
      (as.findSome? (PolledAction.profile n)).map Prod.fst := by
  rw [← profileOf_run, profileOf_eq, Option.map_map]
  exact Option.map_id'.symm

theorem PolledSystem.policyOf_apply {s : PolledSystem F} {n : NodeId} {policy : AsyncPolicy}
    (h : s.manager.policyOf n = some policy) (a : PolledAction F) :
    (s.apply a).manager.policyOf n = some policy := by
  cases a with
  | call a => exact AsyncSystem.policyOf_apply h a
  | lastPoll id => rw [policyOf, nodeStates_lastPoll]; exact h
  | send i => rw [policyOf, nodeStates_send]; exact h

theorem PolledSystem.groupIdOf_apply {s : PolledSystem F} {n : NodeId} {gid : ℕ}
    (h : s.manager.groupIdOf n = some gid) (a : PolledAction F) :
    (s.apply a).manager.groupIdOf n = some gid := by
  cases a with
  | call a => exact AsyncSystem.groupIdOf_apply h a
  | lastPoll id => rw [groupIdOf, nodeStates_lastPoll]; exact h
  | send i => rw [groupIdOf, nodeStates_send]; exact h

end ReactiveGraph
