import ReactiveGraph.Proof.AsyncPolls

/-!
# What the cancelling policies guarantee

`latestWins` and `debounce` cancel what is in flight before they start anew. What they cancel is the
task whose handle the node's state holds, and that is less than "the node's earlier work" in three
ways:

- a handle is forgotten when *any* result of the node is drained, also one that an earlier task left
  in the channel, so a task may be running that no handle names;
- work that waits in a full group's queue has no handle at all;
- a task in its last poll has a handle, and an abort of it comes too late.

Both theorems below give the exact state in which a trigger does supersede everything before it, and
that a run whose triggers all meet it behaves as the policy says. The first, on how much of a node's
work there is at a time, is about runs in which a task may be past its last await. The second, on
the order of the results, takes an abort to end the task it names at once (`AsyncSystem`), so that
what it shows to go wrong does so even then.

**The first is an equivalence, run by run**: the load of a node stays at one if and only if each of
its triggers finds it alone. From right to left this is an invariant. From left to right, a trigger
that does not find it alone leaves two pieces of work, its own and the one it could not cancel, so
the bound fails right after it.

**The second is about nodes in no group**, where a trigger starts its task at once. Futures are
numbered by their triggers, so that the order of results can be said. That results come in order is
one thing; that the last one out belongs to the last trigger, once nothing is on its way, is the
promise in the policy's name.

Debounced futures count as running while they sleep. `queue` is not spoken of; a node keeps the
policy of its first trigger, so one that is always triggered with a cancelling one has a cancelling
one recorded.
-/

namespace ReactiveGraph

open Runs AsyncManager

variable {F : Type*}

/-! ## Superseded work -/

/-- Spawning under a cancelling policy leaves the new future, the tasks of the node that the handle
did not name, and what the node had waiting. The exact load after a trigger, from which both
directions of the equivalence are read off. -/
theorem AsyncManager.load_spawn_self {m : AsyncManager F} (hw : m.WF) {n : NodeId} {f : F}
    {policy : AsyncPolicy} {groupId : Option ℕ}
    (hc : (m.stateOr n policy groupId).policy.cancels) :
    (m.spawn n f policy groupId).load n =
      ((m.tasksOf n).filter fun task => m.handleOf n ≠ some task.id).length
        + (m.waitingOf n).length + 1 := by
  have hload : (m.record n policy groupId).load n = m.load n := by rw [load_record hw]
  have htasks : (m.record n policy groupId).tasksOf n = m.tasksOf n := rfl
  rw [load, load, htasks] at hload
  obtain ⟨d, h⟩ := spawn_of_cancels (f := f) hc
  rw [h, load_startWithin, if_pos rfl, load, tasksOf_cancelExisting_self,
    waitingOf_cancelExisting get_record, inFlight_stateOr, htasks]
  omega

/-- Nothing of the node is queued, and its only running task, if it has one, is the one its handle
names. -/
def AsyncManager.Alone (m : AsyncManager F) (n : NodeId) : Prop :=
  m.waitingOf n = [] ∧ ∀ task ∈ m.tasksOf n, m.handleOf n = some task.id

theorem AsyncManager.alone_iff {m : AsyncManager F} {n : NodeId} : m.Alone n ↔
    ((m.tasksOf n).filter fun task => m.handleOf n ≠ some task.id).length
      + (m.waitingOf n).length = 0 := by
  rw [Nat.add_eq_zero_iff, List.length_eq_zero_iff, List.length_eq_zero_iff,
    List.filter_eq_nil_iff, and_comm, Alone]
  simp

/-- The node is spawned with a cancelling policy whenever it is spawned. -/
def Cancelling (n : NodeId) (_ : AsyncSystem F) : AsyncAction F → Prop
  | .spawn n' _ policy _ => n' = n → policy.cancels
  | _ => True

instance (n : NodeId) (s : AsyncSystem F) : ∀ a, Decidable (Cancelling n s a)
  | .spawn n' _ policy _ => inferInstanceAs (Decidable (n' = n → policy.cancels))
  | .createGroup _ | .complete _ | .drain => .isTrue trivial

/-- The policy the manager holds for the node, if it holds one, is a cancelling one. -/
def AsyncManager.CancelsAt (m : AsyncManager F) (n : NodeId) : Prop :=
  ∀ policy, m.policyOf n = some policy → policy.cancels

theorem AsyncManager.CancelsAt.ne_queue {m : AsyncManager F} {n : NodeId} (h : m.CancelsAt n) :
    m.policyOf n ≠ some .queue := by
  intro hp
  exact absurd (h _ hp) (by simp [AsyncPolicy.cancels])

theorem AsyncManager.CancelsAt.stateOr {m : AsyncManager F} {n : NodeId} (h : m.CancelsAt n)
    {policy : AsyncPolicy} {groupId : Option ℕ} (hp : policy.cancels) :
    (m.stateOr n policy groupId).policy.cancels := by
  cases hs : m.nodeStates.get n with
  | none => rwa [stateOr_of_none hs]
  | some state =>
    rw [stateOr_of_get hs]
    exact h _ (policyOf_of_get hs)

theorem AsyncManager.CancelsAt.apply {s : AsyncSystem F} {n : NodeId} (h : s.manager.CancelsAt n)
    {a : AsyncAction F} (ha : Cancelling n s a) : (s.apply a).manager.CancelsAt n := by
  cases a with
  | createGroup max => exact h
  | spawn n' f policy groupId =>
    intro p hp
    rw [AsyncSystem.apply, policyOf_spawn, record, policyOf_setState] at hp
    split at hp
    · next heq =>
      subst heq
      obtain rfl := Option.some.inj hp
      exact h.stateOr (ha rfl)
    · exact h p hp
  | complete id =>
    intro p hp
    rw [AsyncSystem.apply, policyOf_complete] at hp
    exact h p hp
  | drain =>
    intro p hp
    rw [AsyncSystem.apply, (SameProfile.drainResults _).policyOf] at hp
    exact h p hp

/-! ### With tasks in their last poll

An abort does not reach a task in its last poll, so the load is counted in the system where there
are such tasks, and there the trigger must not find one either. -/

namespace PolledSystem

variable {s : PolledSystem F} {n : NodeId}

/-- A condition on the calls of the manager. What the tasks do by themselves always meets it. -/
def OnCalls (cond : AsyncSystem F → AsyncAction F → Prop) (s : PolledSystem F) :
    PolledAction F → Prop
  | .call a => cond s.toAsyncSystem a
  | .lastPoll _ | .send _ => True

instance {cond : AsyncSystem F → AsyncAction F → Prop} [∀ s a, Decidable (cond s a)]
    (s : PolledSystem F) : ∀ a, Decidable (OnCalls cond s a)
  | .call a => inferInstanceAs (Decidable (cond s.toAsyncSystem a))
  | .lastPoll _ | .send _ => .isTrue trivial

/-- How many futures of a node run or are queued in its group. One in its last poll runs until its
result is in the channel, whatever has become of its handle. -/
def load (s : PolledSystem F) (n : NodeId) : ℕ :=
  (s.runningOf n).length + (s.manager.waitingOf n).length

theorem load_eq (s : PolledSystem F) (n : NodeId) :
    s.load n = s.manager.load n + (s.finishingOf n).length := by
  simp only [load, runningOf, running, finishingOf, List.filter_append, List.map_append,
    List.length_append, List.length_map, AsyncManager.load, tasksOf]
  omega

/-- Nothing of the node is queued or in its last poll, and the handle names its only running task,
if it has one: what a trigger finds, it can cancel. -/
def Alone (s : PolledSystem F) (n : NodeId) : Prop := s.manager.Alone n ∧ s.finishingOf n = []

theorem alone_iff : s.Alone n ↔
    ((s.manager.tasksOf n).filter fun task => s.manager.handleOf n ≠ some task.id).length
      + (s.manager.waitingOf n).length + (s.finishingOf n).length = 0 := by
  rw [Nat.add_eq_zero_iff, ← AsyncManager.alone_iff, List.length_eq_zero_iff, Alone]

/-- Whenever the node is spawned, it is alone. -/
def SpawnedAlone (n : NodeId) (s : PolledSystem F) : PolledAction F → Prop
  | .call (.spawn n' _ _ _) => n' = n → s.Alone n
  | _ => True

/-- A call of the manager changes the load of a node by what it does to the manager's own. -/
theorem load_call (s : PolledSystem F) (a : AsyncAction F) (n : NodeId) :
    (s.apply (.call a)).load n = (s.toAsyncSystem.apply a).manager.load n
      + (s.finishingOf n).length := load_eq _ n

/-- A trigger cancels no task in its last poll, so its own future comes on top of everything the
node's state does not name. -/
theorem load_spawn_self (hw : s.manager.WF) {f : F} {policy : AsyncPolicy} {groupId : Option ℕ}
    (hc : (s.manager.stateOr n policy groupId).policy.cancels) :
    (s.apply (.call (.spawn n f policy groupId))).load n =
      ((s.manager.tasksOf n).filter fun task => s.manager.handleOf n ≠ some task.id).length
        + (s.manager.waitingOf n).length + (s.finishingOf n).length + 1 := by
  rw [load_call, AsyncSystem.apply, AsyncManager.load_spawn_self hw hc]
  omega

/-- Going into the last poll, a task goes on running. -/
theorem load_lastPoll (s : PolledSystem F) (id : TaskId) (n : NodeId) :
    (s.apply (.lastPoll id)).load n = s.load n := by
  have hrun : ((s.apply (.lastPoll id)).runningOf n).length = (s.runningOf n).length :=
    (((s.running_lastPoll id).filter _).map _).length_eq
  have hwaiting : (s.apply (.lastPoll id)).manager.waitingOf n = s.manager.waitingOf n := by
    obtain heq | ⟨task, -, heq⟩ := s.lastPoll_cases id <;> rw [heq]
    rfl
  rw [load, load, hrun, hwaiting]

/-- The send of a task in its last poll takes it from what runs. -/
theorem load_send_le (s : PolledSystem F) (i : ℕ) (n : NodeId) :
    (s.apply (.send i)).load n ≤ s.load n := by
  obtain heq | ⟨task, hperm, heq⟩ := s.send_cases i
  · rw [heq]
  · have hmanager : (s.manager.deliver task).load n = s.manager.load n := rfl
    have hfinishing : (((s.finishing.eraseIdx i).filter (·.nodeId = n)).map Task.future).length ≤
        (s.finishingOf n).length :=
      (((List.eraseIdx_sublist _ _).filter _).map _).length_le
    rw [heq, load_eq, load_eq, hmanager]
    exact Nat.add_le_add_left hfinishing _

/-- The manager's policy for the node stays a cancelling one while the node is spawned under
cancelling policies only. -/
theorem cancelsAt_apply (h : s.manager.CancelsAt n) {a : PolledAction F}
    (ha : OnCalls (Cancelling n) s a) : (s.apply a).manager.CancelsAt n := by
  cases a with
  | call a => exact h.apply ha
  | lastPoll id =>
    intro policy hp
    rw [policyOf, nodeStates_lastPoll] at hp
    exact h policy hp
  | send i =>
    intro policy hp
    rw [policyOf, nodeStates_send] at hp
    exact h policy hp

/-- **One step of a node that is alone when it is triggered.** Only a trigger of the node itself adds
to its load, by one to what it cannot cancel; one case for each action. -/
theorem load_apply_le_one (hw : s.WF) (hc : s.manager.CancelsAt n) (hl : s.load n ≤ 1)
    {a : PolledAction F} (ha : OnCalls (Cancelling n) s a) (halone : SpawnedAlone n s a) :
    (s.apply a).load n ≤ 1 := by
  cases a with
  | lastPoll id => rwa [load_lastPoll]
  | send i => exact (s.load_send_le i n).trans hl
  | call a =>
    rw [load_eq] at hl
    cases a with
    | createGroup max =>
      rw [load_call, AsyncSystem.apply, load_createGroup hw.manager]
      exact hl
    | spawn n' f policy groupId =>
      by_cases hn : n = n'
      · subst hn
        have hzero := alone_iff.mp (halone rfl)
        rw [load_spawn_self hw.manager (hc.stateOr (ha rfl))]
        omega
      · rw [load_call, AsyncSystem.apply, load_spawn_of_ne hw.manager hn]
        exact hl
    | complete id =>
      rw [load_call]
      exact (Nat.add_le_add_right (load_complete_le s.manager id n) _).trans hl
    | drain =>
      rw [load_call, AsyncSystem.apply, load_drainResults hw.manager hc.ne_queue]
      exact hl

/-- What a trigger finds and cannot cancel is there beside its own future. -/
theorem one_lt_load_apply (hw : s.WF) (hc : s.manager.CancelsAt n) {a : PolledAction F}
    (ha : OnCalls (Cancelling n) s a) (hnot : ¬ SpawnedAlone n s a) : 1 < (s.apply a).load n := by
  cases a with
  | lastPoll id => exact absurd trivial hnot
  | send i => exact absurd trivial hnot
  | call a =>
    cases a with
    | spawn n' f policy groupId =>
      obtain ⟨rfl, hnot⟩ := Classical.not_imp.mp hnot
      have hpos := mt alone_iff.mpr hnot
      rw [load_spawn_self hw.manager (hc.stateOr (ha rfl))]
      omega
    | createGroup max => exact absurd trivial hnot
    | complete id => exact absurd trivial hnot
    | drain => exact absurd trivial hnot

/-- **Superseded work does not pile up, exactly when no trigger finds any that cannot be
cancelled.** In a run that spawns the node under cancelling policies only, at most one future of
it is ever queued in its group or running if and only if each time it is spawned nothing of it is
queued or in its last poll, and its handle names its only running task.

The runs are those of the manager with any other nodes in any groups beside this one, and an abort
stops a task only where it awaits. What the theorem rests on is that a trigger adds exactly one to
what it cannot cancel (`load_spawn_self`), and that nothing else the manager or a task does adds to
the load of a node whose policy keeps nothing pending. -/
theorem load_le_one_iff (n : NodeId) (as : List (PolledAction F))
    (h : AllSteps apply (OnCalls (Cancelling n)) init as) :
    Always apply (fun s => s.load n ≤ 1) init as ↔ AllSteps apply (SpawnedAlone n) init as := by
  refine always_iff_allSteps
    (I := fun s => s.WF ∧ s.manager.CancelsAt n ∧ s.load n ≤ 1)
    (fun s hs => hs.2.2) ?_ ?_ ⟨WF.init, ?_, Nat.zero_le 1⟩ h
  · rintro s a ⟨hw, hc, hl⟩ ha halone
    exact ⟨hw.apply a, cancelsAt_apply hc ha, load_apply_le_one hw hc hl ha halone⟩
  · rintro s a ⟨hw, hc, -⟩ ha hnot
    exact (one_lt_load_apply hw hc ha hnot).not_ge
  · rintro p hp
    simp [policyOf, init, AsyncSystem.init, AsyncManager.new] at hp

/-- Two nodes share one slot. The first trigger's task is in its last poll, sends, and is drained
before the node is triggered again; that trigger waits for the other node's task, is started from
the queue, and is cancelled by the next. -/
theorem load_le_one_iff_drained : Always apply (fun s => s.load nodeA ≤ 1) init
      [.call (.createGroup 1), .call (.spawn nodeA 1 .latestWins (some 0)),
        .call (.spawn nodeB 0 .queue (some 0)), .lastPoll 0, .send 0, .call .drain,
        .call (.spawn nodeA 2 .latestWins (some 0)), .call (.complete 1), .call .drain,
        .call (.spawn nodeA 3 (.debounce 5) (some 0))] ↔
    AllSteps apply (SpawnedAlone nodeA) init
      [.call (.createGroup 1), .call (.spawn nodeA 1 .latestWins (some 0)),
        .call (.spawn nodeB 0 .queue (some 0)), .lastPoll 0, .send 0, .call .drain,
        .call (.spawn nodeA 2 .latestWins (some 0)), .call (.complete 1), .call .drain,
        .call (.spawn nodeA 3 (.debounce 5) (some 0))] :=
  load_le_one_iff nodeA _ (by decide)

/-- **Superseded work piles up.** With the one slot of the group taken by another node, a trigger
waits in the group's queue, where the next trigger does not look: both wait. No task in its last
poll is needed for it. -/
theorem superseded_work_piles_up : ∃ as : List (PolledAction ℕ),
    AllSteps apply (OnCalls (Cancelling nodeA)) init as ∧
      ¬ Always apply (fun s => s.load nodeA ≤ 1) init as :=
  ⟨[.call (.createGroup 1), .call (.spawn nodeB 0 .latestWins (some 0)),
    .call (.spawn nodeA 1 .latestWins (some 0)), .call (.spawn nodeA 2 .latestWins (some 0))],
    by decide, by decide⟩

end PolledSystem

/-! ## The order of the results -/

/-- Outside every group a trigger always starts its task, after those the handle did not name. -/
theorem AsyncManager.tasksOf_spawn_self {m : AsyncManager F} {n : NodeId} {f : F}
    {policy : AsyncPolicy} {groupId : Option ℕ}
    (hc : (m.stateOr n policy groupId).policy.cancels)
    (hg : (m.record n policy groupId).groupIdOf n = none) :
    ∃ task : Task F, task.future = f ∧ (m.spawn n f policy groupId).tasksOf n =
      (m.tasksOf n).filter (fun t => m.handleOf n ≠ some t.id) ++ [task] := by
  obtain ⟨d, h⟩ := spawn_of_cancels (f := f) hc
  have htasks : ((m.record n policy groupId).cancelExisting n (m.stateOr n policy groupId)).tasksOf n
      = (m.tasksOf n).filter fun t => m.handleOf n ≠ some t.id := by
    rw [tasksOf_cancelExisting_self, inFlight_stateOr]
    rfl
  have hnone : ((m.record n policy groupId).cancelExisting n
      (m.stateOr n policy groupId)).groupOf n = none := by
    rw [groupOf_eq, groupIdOf_cancelExisting get_record, hg, Option.bind_none]
  rw [h, ← htasks]
  generalize (m.record n policy groupId).cancelExisting n (m.stateOr n policy groupId) = c at hnone
  obtain ⟨-, hst⟩ | ⟨gid, group, hgr, -, -⟩ | ⟨gid, group, hgr, -, -⟩ := c.startWithin_cases n f d
  · refine ⟨⟨c.runtime.nextTask, n, f, d, c.notifier⟩, rfl, ?_⟩
    rw [hst, tasksOf_start, if_pos rfl]
  all_goals
    rw [hnone] at hgr
    exact absurd hgr (by simp)

/-- A node outside every group, under a policy that keeps nothing pending, has no work that a
completion could start. So between two of its triggers its tasks only become fewer. -/
theorem AsyncManager.tasksOf_processCompletion {m : AsyncManager F} (hw : m.WF) (n' : NodeId)
    {n : NodeId} (hg : m.groupIdOf n = none) (hp : m.policyOf n ≠ some .queue) :
    (m.processCompletion n').tasksOf n = m.tasksOf n := by
  cases hs : m.nodeStates.get n' with
  | none => rw [processCompletion_of_none hs]
  | some state =>
    -- A slot that is freed starts work of nodes in the group, and this node is in none.
    have hgroup : ((m.setState n' state.settle.1).settleGroup state.groupId).tasksOf n
        = m.tasksOf n := by
      cases state.groupId with
      | none => rfl
      | some gid =>
        refine (trySpawnFromGroupQueue_induction
          (P := fun m' => m'.WF ∧ m'.groupIdOf n = none ∧ m'.tasksOf n = m.tasksOf n) ?_
          ⟨(hw.settle hs).releaseSlot gid, ?_, ?_⟩).2.2
        · rintro m' max k work queue ⟨hw', hg', ht⟩ hq -
          have hne : work.nodeId ≠ n := by
            rintro rfl
            have := hw'.queue_own gid _ hq work List.mem_cons_self
            rw [hg'] at this
            exact absurd this (by simp)
          refine ⟨hw'.promote hq, by simpa using hg', ?_⟩
          rw [tasksOf_start, if_neg hne, tasksOf_setGroup, ht]
        · rw [groupIdOf_releaseSlot, (SameProfile.settle hs).groupIdOf, hg]
        · rw [tasksOf_releaseSlot, tasksOf_setState]
    rw [processCompletion_of_get hs]
    split
    · next future hf =>
      have hne : n ≠ n' := by
        rintro rfl
        rw [policyOf_of_get hs] at hp
        rw [settle_of_ne_queue (fun heq => hp (by rw [heq]))] at hf
        exact absurd hf (by simp)
      rw [trySpawn, tasksOf_startWithin_of_ne _ _ _ hne, hgroup]
    · exact hgroup

theorem AsyncManager.tasksOf_drainResults {m : AsyncManager F} (hw : m.WF) {n : NodeId}
    (hg : m.groupIdOf n = none) (hp : m.policyOf n ≠ some .queue) :
    m.drainResults.1.tasksOf n = m.tasksOf n := by
  refine (drainResults_induction (P := fun m' => m'.WF ∧ m'.groupIdOf n = none ∧
    m'.policyOf n ≠ some .queue ∧ m'.tasksOf n = m.tasksOf n) ?_
    ⟨hw.takeResults, hg, hp, rfl⟩).2.2.2
  rintro m' n' ⟨hw', hg', hp', ht⟩
  have hprof := SameProfile.processCompletion m' n'
  exact ⟨hw'.processCompletion n', by rw [hprof.groupIdOf, hg'], by rwa [hprof.policyOf],
    by rw [tasksOf_processCompletion hw' n' hg' hp', ht]⟩

/-- The node is spawned under a cancelling policy and without a group, and its futures are the
numbers of its triggers, from one on. -/
def Triggers (n : NodeId) (s : AsyncSystem ℕ) : AsyncAction ℕ → Prop
  | .spawn n' k policy groupId =>
    n' = n → policy.cancels ∧ groupId = none ∧ k = (s.spawnedOf n).length + 1
  | _ => True

instance (n : NodeId) (s : AsyncSystem ℕ) : ∀ a, Decidable (Triggers n s a)
  | .spawn n' k policy groupId => inferInstanceAs (Decidable (n' = n →
      policy.cancels ∧ groupId = none ∧ k = (s.spawnedOf n).length + 1))
  | .createGroup _ | .complete _ | .drain => .isTrue trivial

/-- Whenever the node is spawned, its handle names its only running task. -/
def SpawnedOwn (n : NodeId) (s : AsyncSystem ℕ) : AsyncAction ℕ → Prop
  | .spawn n' _ _ _ => n' = n → ∀ task ∈ s.manager.tasksOf n, s.manager.handleOf n = some task.id
  | _ => True

instance (n : NodeId) (s : AsyncSystem ℕ) : ∀ a, Decidable (SpawnedOwn n s a)
  | .spawn n' _ _ _ => inferInstanceAs (Decidable (n' = n →
      ∀ task ∈ s.manager.tasksOf n, s.manager.handleOf n = some task.id))
  | .createGroup _ | .complete _ | .drain => .isTrue trivial

/-- The results drained so far come in the order of their triggers, and when nothing is on its way
the last of them is the last trigger's. -/
def LatestTriggerWins (n : NodeId) (s : AsyncSystem ℕ) : Prop :=
  (s.drainedOf n).Pairwise (· < ·) ∧
    (s.manager.tasksOf n = [] → s.manager.resultsOf n = [] →
      (s.drainedOf n).getLast? = (s.spawnedOf n).getLast?)

/-- What has been drained, what is in the channel and what is running, in this order, which is the
order in which it will have been drained. -/
def line (n : NodeId) (s : AsyncSystem ℕ) : List ℕ :=
  s.drainedOf n ++ s.manager.resultsOf n ++ (s.manager.tasksOf n).map Task.future

/-- With at most one task running, the line is in the order of the triggers and ends with the
last one. -/
structure InLine (n : NodeId) (s : AsyncSystem ℕ) : Prop where
  wf : s.manager.WF
  cancels : s.manager.CancelsAt n
  ungrouped : s.manager.groupIdOf n = none
  tasks : (s.manager.tasksOf n).length ≤ 1
  increasing : (line n s).Pairwise (· < ·)
  le : ∀ k ∈ line n s, k ≤ (s.spawnedOf n).length
  last : (line n s).getLast? = (s.spawnedOf n).getLast?

variable {n : NodeId} {s : AsyncSystem ℕ}

theorem InLine.wins (h : InLine n s) : LatestTriggerWins n s := by
  refine ⟨?_, fun ht hr => ?_⟩
  · have hsub : (s.drainedOf n).Sublist (line n s) := by
      rw [line, List.append_assoc]
      exact List.sublist_append_left _ _
    exact h.increasing.sublist hsub
  · have := h.last
    rwa [line, ht, hr, List.map_nil, List.append_nil, List.append_nil] at this

/-- An action that leaves the node's tasks, line and triggers alone. -/
theorem InLine.congr (h : InLine n s) {s' : AsyncSystem ℕ} (hw : s'.manager.WF)
    (hc : s'.manager.CancelsAt n) (hg : s'.manager.groupIdOf n = none)
    (ht : (s'.manager.tasksOf n).length ≤ 1) (hl : line n s' = line n s)
    (hs : s'.spawnedOf n = s.spawnedOf n) : InLine n s' :=
  ⟨hw, hc, hg, ht, by rw [hl]; exact h.increasing, by rw [hl, hs]; exact h.le,
    by rw [hl, hs]; exact h.last⟩

/-- A trigger that finds only the task its handle names takes the place of that task: it is
cancelled at the end of the line and the new one comes there, with a greater number. -/
theorem InLine.spawn (h : InLine n s) {k : ℕ} {policy : AsyncPolicy} {groupId : Option ℕ}
    (ha : Triggers n s (.spawn n k policy groupId))
    (ho : SpawnedOwn n s (.spawn n k policy groupId)) :
    InLine n (s.apply (.spawn n k policy groupId)) := by
  obtain ⟨hp, rfl, rfl⟩ := ha rfl
  have hcancels : (s.manager.stateOr n policy none).policy.cancels := h.cancels.stateOr hp
  have hgid : (s.manager.record n policy none).groupIdOf n = none := by
    rw [record, groupIdOf_setState, if_pos rfl]
    cases hs : s.manager.nodeStates.get n with
    | none => rw [stateOr_of_none hs]
    | some state => rw [stateOr_of_get hs, ← groupIdOf_of_get hs, h.ungrouped]
  obtain ⟨task, hfut, htasks⟩ :=
    tasksOf_spawn_self (f := (s.spawnedOf n).length + 1) hcancels hgid
  -- nothing of the node is left running by the cancellation
  have hnone : (s.manager.tasksOf n).filter (fun t => s.manager.handleOf n ≠ some t.id) = [] :=
    List.filter_eq_nil_iff.mpr fun t ht => by simpa using ho rfl t ht
  rw [hnone, List.nil_append] at htasks
  have hspawned : (s.apply (.spawn n ((s.spawnedOf n).length + 1) policy none)).spawnedOf n =
      s.spawnedOf n ++ [(s.spawnedOf n).length + 1] := by
    simp [AsyncSystem.spawnedOf, AsyncSystem.apply]
  have hline : line n (s.apply (.spawn n ((s.spawnedOf n).length + 1) policy none)) =
      s.drainedOf n ++ s.manager.resultsOf n ++ [(s.spawnedOf n).length + 1] := by
    have hr : (s.manager.spawn n ((s.spawnedOf n).length + 1) policy none).resultsOf n =
        s.manager.resultsOf n := by rw [resultsOf, resultRx_spawn, resultsOf]
    simp only [line, AsyncSystem.apply, htasks, hr, List.map_cons, List.map_nil, hfut]
    rfl
  have hsub : (s.drainedOf n ++ s.manager.resultsOf n).Sublist (line n s) :=
    List.sublist_append_left _ _
  refine ⟨AsyncSystem.WF.apply h.wf _, h.cancels.apply fun _ => hp, ?_,
    by simp [AsyncSystem.apply, htasks], ?_, ?_, ?_⟩
  · rw [AsyncSystem.apply, groupIdOf_spawn, hgid]
  · rw [hline, List.pairwise_append]
    refine ⟨h.increasing.sublist hsub, List.pairwise_singleton _ _, fun x hx y hy => ?_⟩
    have := h.le x (hsub.subset hx)
    rw [List.mem_singleton.mp hy]
    omega
  · rw [hline, hspawned]
    intro x hx
    rw [List.length_append, List.length_singleton]
    rcases List.mem_append.mp hx with hx | hx
    · have := h.le x (hsub.subset hx)
      omega
    · rw [List.mem_singleton.mp hx]
  · rw [hline, hspawned, List.getLast?_concat, List.getLast?_concat]

/-- A completing task takes its future from the running tasks to the end of the channel; being
the node's only one, it keeps its place in the line. -/
theorem InLine.complete (h : InLine n s) (id : TaskId) : InLine n (s.apply (.complete id)) := by
  have hw : (s.apply (.complete id)).manager.WF := AsyncSystem.WF.apply h.wf _
  have hc : (s.apply (.complete id)).manager.CancelsAt n := h.cancels.apply trivial
  have hg : (s.apply (.complete id)).manager.groupIdOf n = none := by
    rw [AsyncSystem.apply, groupIdOf_complete, h.ungrouped]
  obtain heq | ⟨task, hmem, -, heq⟩ := s.manager.complete_cases id
  · have : s.apply (.complete id) = s := by rw [AsyncSystem.apply, heq]
    rwa [this]
  · have htasks : (s.manager.complete id).tasksOf n =
        (s.manager.tasksOf n).filter (·.id ≠ task.id) := by
      rw [heq]
      simp only [tasksOf, Runtime.running_finish, List.filter_filter]
      exact List.filter_congr fun t _ => Bool.and_comm _ _
    by_cases hn : task.nodeId = n
    -- The node has at most one task, so the one that completes is all of them.
    · have hin : task ∈ s.manager.tasksOf n := List.mem_filter.mpr ⟨hmem, by simpa using hn⟩
      have hone : s.manager.tasksOf n = [task] := by
        obtain ⟨t, ht⟩ := List.length_eq_one_iff.mp
          (Nat.le_antisymm h.tasks (List.length_pos_of_mem hin))
        rw [ht, List.mem_singleton] at hin
        rw [ht, hin]
      have hnil : (s.manager.complete id).tasksOf n = [] := by rw [htasks, hone]; simp
      refine h.congr hw hc hg (by rw [AsyncSystem.apply, hnil]; simp) ?_ rfl
      have hres : (s.manager.complete id).resultsOf n = s.manager.resultsOf n ++ [task.future] := by
        rw [heq]
        simp [resultsOf, hn]
      simp only [line, AsyncSystem.apply, hnil, hres, hone, List.map_nil, List.map_cons,
        List.append_nil, List.append_assoc]
      rfl
    · have hsame : (s.manager.complete id).tasksOf n = s.manager.tasksOf n := by
        rw [htasks]
        refine List.filter_eq_self.mpr fun t ht => ?_
        obtain ⟨htm, htn⟩ := List.mem_filter.mp ht
        have hne : t.id ≠ task.id := by
          -- Ids are never reused: a task with the same id is the same task, of another node.
          intro hid
          rw [s.manager.runtime.eq_of_id_eq htm hmem hid] at htn
          exact hn (by simpa using htn)
        simpa using hne
      refine h.congr hw hc hg (by rw [AsyncSystem.apply, hsame]; exact h.tasks) ?_ rfl
      have hres : (s.manager.complete id).resultsOf n = s.manager.resultsOf n := by
        rw [heq]
        simp [resultsOf, hn]
      simp only [line, AsyncSystem.apply, hsame, hres]
      rfl

theorem InLine.apply (h : InLine n s) {a : AsyncAction ℕ} (ha : Triggers n s a)
    (ho : SpawnedOwn n s a) : InLine n (s.apply a) := by
  cases a with
  | createGroup max =>
    exact h.congr (h.wf.createGroup max) h.cancels h.ungrouped h.tasks rfl rfl
  | spawn n' k policy groupId =>
    by_cases hn : n' = n
    · subst hn
      exact h.spawn ha ho
    -- a trigger of another node; the node's own is the step lemma
    · have htasks : (s.manager.spawn n' k policy groupId).tasksOf n = s.manager.tasksOf n :=
        tasksOf_spawn_of_ne h.wf (Ne.symm hn)
      refine h.congr (h.wf.spawn _ _ _ _) (h.cancels.apply fun heq => absurd heq hn) ?_
        (by rw [AsyncSystem.apply, htasks]; exact h.tasks) ?_ ?_
      · rw [AsyncSystem.apply, groupIdOf_spawn, record, groupIdOf_setState,
          if_neg (Ne.symm hn), h.ungrouped]
      · simp only [line, AsyncSystem.apply, htasks, resultsOf, resultRx_spawn]
        rfl
      · simp [AsyncSystem.spawnedOf, AsyncSystem.apply, hn]
  | complete id => exact h.complete id
  | drain =>
    have hprof := SameProfile.drainResults s.manager
    have htasks := tasksOf_drainResults h.wf h.ungrouped h.cancels.ne_queue
    refine h.congr h.wf.drainResults (h.cancels.apply trivial) ?_
      (by rw [AsyncSystem.apply, htasks]; exact h.tasks) ?_ rfl
    · rw [AsyncSystem.apply, hprof.groupIdOf]
      exact h.ungrouped
    · have hdrained : (s.apply .drain).drainedOf n = s.drainedOf n ++ s.manager.resultsOf n := by
        simp [AsyncSystem.drainedOf, AsyncSystem.apply, resultsOf, drainResults]
      simp only [line, hdrained]
      simp only [AsyncSystem.apply, htasks, resultsOf, hprof.resultRx]
      simp

theorem InLine.init : InLine n .init :=
  ⟨WF.new, by simp [CancelsAt, policyOf, AsyncSystem.init, AsyncManager.new], rfl,
    Nat.zero_le 1, List.Pairwise.nil, by simp [line, AsyncSystem.init, AsyncManager.new, tasksOf,
      Runtime.new, resultsOf, AsyncSystem.drainedOf], rfl⟩

/-- **The latest trigger wins when every trigger finds what its handle names and nothing else.**
Outside every group and under a cancelling policy, in a run whose triggers of the node each find no
running task of it but the one its handle names, the results come out in the order of the triggers,
and the last one out is the last trigger's.

The condition is on the state before each trigger. It fails when an earlier completion has cleared a
newer task's handle, and in no other way outside of groups. Aborts are taken to be effective, which
is the more favourable case. -/
theorem latestTriggerWins (n : NodeId) (as : List (AsyncAction ℕ))
    (h : AllSteps AsyncSystem.apply (Triggers n) .init as)
    (ho : AllSteps AsyncSystem.apply (SpawnedOwn n) .init as) :
    Always AsyncSystem.apply (LatestTriggerWins n) .init as :=
  always_of_invariant (fun _ _ hi ha => InLine.apply hi ha.1 ha.2)
    (fun _ hi => hi.wins) InLine.init (h.and ho)

/-- The second trigger cancels the first, the third finds the second drained. -/
theorem latestTriggerWins_cancelled : Always AsyncSystem.apply (LatestTriggerWins nodeA) .init
    [.spawn nodeA 1 .latestWins none, .spawn nodeA 2 .latestWins none, .complete 1, .drain,
      .spawn nodeA 3 .latestWins none, .complete 2, .drain] :=
  latestTriggerWins nodeA _ (by decide) (by decide)

/-- **A superseded trigger can win.** The first task completes, and before its result is drained the
second trigger starts. Draining the first result forgets the second task's handle, so the third
trigger cannot cancel it, and the second result comes out last. -/
theorem superseded_trigger_wins : ∃ as : List (AsyncAction ℕ),
    AllSteps AsyncSystem.apply (Triggers nodeA) .init as ∧
      ¬ Always AsyncSystem.apply (LatestTriggerWins nodeA) .init as := by
  refine ⟨[.spawn nodeA 1 .latestWins none, .complete 0, .spawn nodeA 2 .latestWins none, .drain,
    .spawn nodeA 3 .latestWins none, .complete 2, .drain, .complete 1, .drain], by decide,
    fun h => ?_⟩
  exact absurd h.last.1 (by decide)

end ReactiveGraph
