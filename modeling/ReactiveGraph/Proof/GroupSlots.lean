import ReactiveGraph.Proof.GroupLimit
import ReactiveGraph.Proof.AsyncPolls

/-!
# No slot is leaked, none is left idle

`GroupLimit` keeps an exact account of a group's counter, and needs the run's triggers to cancel
nothing but running tasks for it. Without that the counter may fall behind the tasks — a slot is
given back twice, or by a task that goes on running — and what is left of the account is one half,

    inFlight ≤ running tasks of the group + results of the group not processed yet

which no schedule breaks: every step that adds to the counter starts a task, and every step that
ends a task, or takes a result, takes one from the counter too. This is `Paid`. Beside it stands
`Filled`: a group with queued work has no free slot. A slot is free between its release and the step
that fills it, so `Filled` names the group, if any, that may have one.

**What this is good for.** If a group counts a slot as taken then some task of it runs, or has a
result that is to be drained. So work that is queued is not waiting for a slot that nobody holds,
and when the task it waits for is done and drained, it starts (`QueuedWorkMoves`). Nothing can be
stranded in a queue, though the limit may be exceeded.

**The runs are those of `PolledSystem`**, with no condition: groups may be named before they are
made, aborts may come too late, a completed task's handle may be aborted. The tasks in their last
poll owe their group a slot, as undrained results do, and `owing` lists both.

One step keeps the account (`Kept.apply`); that queued work starts is then said of the two steps
that a live task has before it, and proved from the account at the state in between.
-/

namespace ReactiveGraph

open Runs

variable {F : Type*}

namespace AsyncManager

variable {m : AsyncManager F}

/-- Every slot that a group counts is paid for, by a running task of the group or by one of the
nodes that owe it a slot; and a group counts no more slots than it has. The second half is kept
since a slot is taken only when one is free. -/
def Paid (m : AsyncManager F) (owing : List NodeId) : Prop := m.Tallied (· ≤ ·) owing

/-- A group with queued work has no free slot, except that the group `short` may have one. Between
operations there is none; inside one, a slot has just been released. -/
def Filled (m : AsyncManager F) (short : Option ℕ) : Prop :=
  ∀ gid group, m.groups.get gid = some group → group.queue ≠ [] →
    group.maxConcurrent ≤ group.inFlight + if short = some gid then 1 else 0

theorem Filled.mono (h : m.Filled none) (short : Option ℕ) : m.Filled short := by
  intro gid group hg hq
  have := h gid group hg hq
  simp only [reduceCtorEq, if_false] at this
  omega

/-! ## Starting and queueing -/

/-- A task that takes no slot only adds to what pays. -/
theorem Paid.start {owing : List NodeId} (h : m.Paid owing) (n : NodeId) (f : F) (d : Option ℕ) :
    (m.start n f d).Paid owing := by
  intro gid group hg
  rw [groups_start] at hg
  rw [usage_start, owed, groupIdOf_start, ← owed]
  have := h gid group hg
  omega

/-- Only the node's own group can change. -/
theorem get_groups_startWithin {n : NodeId} {gid : ℕ} (hn : m.groupIdOf n ≠ some gid) (f : F)
    (d : Option ℕ) : (m.startWithin n f d).groups.get gid = m.groups.get gid := by
  obtain ⟨-, hs⟩ | ⟨gid', group, hg, -, hs⟩ | ⟨gid', group, hg, -, hs⟩ := m.startWithin_cases n f d
  · rw [hs, groups_start]
  all_goals
    have hne : gid ≠ gid' := fun heq => hn (heq ▸ (groupOf_eq_some.mp hg).1)
    rw [hs]
  · rw [groups_start, groups_setGroup, FinMap.get_insert_of_ne _ _ hne]
  · rw [groups_setGroup, FinMap.get_insert_of_ne _ _ hne]

theorem Paid.startWithin {owing : List NodeId} (h : m.Paid owing) (n : NodeId) (f : F)
    (d : Option ℕ) : (m.startWithin n f d).Paid owing :=
  Tallied.startWithin h fun _ => h.start n f d

/-- Starting or queueing a future of a node fills the free slot its group may have: the future takes
it, or found none. A trigger that cancels releases a slot and then starts a future, so the slot is
filled by the trigger itself. -/
theorem Filled.startWithin {n : NodeId} (h : m.Filled (m.groupIdOf n)) (f : F) (d : Option ℕ) :
    (m.startWithin n f d).Filled none := by
  intro gid group hg hq
  obtain ⟨hn, hs⟩ | ⟨gid', group', hn, hlt, hs⟩ | ⟨gid', group', hn, hfull, hs⟩ :=
    m.startWithin_cases n f d
  · rw [hs, groups_start] at hg
    -- The node has no group in the table, so `gid`, which is there, is not its own.
    have hne : m.groupIdOf n ≠ some gid := by
      intro hid
      rw [groupOf_eq, hid, Option.bind_some, hg, Option.map_some] at hn
      exact absurd hn (by simp)
    have := h gid group hg hq
    rw [if_neg hne] at this
    simpa using this
  · obtain ⟨hid, hg'⟩ := groupOf_eq_some.mp hn
    rw [hs, groups_start] at hg
    rw [hid] at h
    obtain ⟨rfl, rfl⟩ | ⟨heq, hg⟩ := FinMap.get_insert_eq_some.mp hg
    · have := h gid group' hg' hq
      simpa using this
    · have := h gid group hg hq
      rw [if_neg (fun hc => heq (Option.some.inj hc).symm)] at this
      simpa using this
  · obtain ⟨hid, hg'⟩ := groupOf_eq_some.mp hn
    rw [hs] at hg
    rw [hid] at h
    obtain ⟨rfl, rfl⟩ | ⟨heq, hg⟩ := FinMap.get_insert_eq_some.mp hg
    · simpa using hfull
    · have := h gid group hg hq
      rw [if_neg (fun hc => heq (Option.some.inj hc).symm)] at this
      simpa using this

/-! ## Releasing and filling -/

theorem Filled.releaseSlot (h : m.Filled none) (gid : ℕ) :
    (m.releaseSlot gid).Filled (some gid) := by
  intro gid' group' hg' hq
  rw [get_groups_releaseSlot] at hg'
  by_cases heq : gid' = gid
  · subst heq
    rw [if_pos rfl] at hg' ⊢
    obtain ⟨group, hg, rfl⟩ := Option.map_eq_some_iff.mp hg'
    have := h gid' group hg hq
    simp only [reduceCtorEq, if_false] at this ⊢
    omega
  · rw [if_neg heq] at hg'
    exact h.mono _ gid' group' hg' hq

/-- Work that moves up does not touch the other groups. -/
theorem get_groups_spawnFromQueue {gid gid' : ℕ} (hne : gid' ≠ gid) (n : ℕ) :
    (m.spawnFromQueue gid n).groups.get gid' = m.groups.get gid' := by
  refine spawnFromQueue_induction (P := fun m' => m'.groups.get gid' = m.groups.get gid') ?_ n rfl
  intro m' max k work queue h _ _
  rw [groups_start, groups_setGroup, FinMap.get_insert, if_neg hne, h]

/-- The loop ends with the queue empty or the slots taken: `n` iterations are enough for a queue of
length `n`. So the fuel of the model never cuts the loop short. -/
theorem spawnFromQueue_filled {gid : ℕ} (n : ℕ) {group group' : ConcurrencyGroupState F}
    (hg : m.groups.get gid = some group) (hn : group.queue.length ≤ n)
    (hg' : (m.spawnFromQueue gid n).groups.get gid = some group') (hq : group'.queue ≠ []) :
    group'.maxConcurrent ≤ group'.inFlight := by
  induction n generalizing m group with
  -- no iteration left means that nothing was queued
  | zero =>
    obtain rfl := Option.some.inj (hg.symm.trans hg')
    exact absurd (List.length_eq_zero_iff.mp (Nat.le_zero.mp hn)) hq
  | succ n ih =>
    obtain ⟨max, k, queue⟩ := group
    rw [spawnFromQueue] at hg'
    cases queue with
    | nil =>
      simp only [hg] at hg'
      obtain rfl := Option.some.inj hg'
      exact absurd rfl hq
    | cons work queue =>
      simp only [hg] at hg'
      split at hg'
      · have hnext : ((m.setGroup gid ⟨max, k + 1, queue⟩).spawnRaw work.nodeId
            work.future).groups.get gid = some ⟨max, k + 1, queue⟩ := by
          rw [spawnRaw, groups_start, groups_setGroup, FinMap.get_insert_self]
        exact ih hnext (Nat.le_of_succ_le_succ hn) hg'
      · next hle =>
        obtain rfl := Option.some.inj (hg.symm.trans hg')
        exact Nat.le_of_not_lt hle

theorem Filled.trySpawnFromGroupQueue {gid : ℕ} (h : m.Filled (some gid)) :
    (m.trySpawnFromGroupQueue gid).Filled none := by
  intro gid' group' hg' hq
  unfold AsyncManager.trySpawnFromGroupQueue at hg'
  by_cases heq : gid' = gid
  · subst heq
    split at hg'
    · next group hg => exact spawnFromQueue_filled _ hg le_rfl hg' hq
    · next hg =>
      rw [hg] at hg'
      exact absurd hg' (by simp)
  · have hsame : m.groups.get gid' = some group' := by
      split at hg'
      · rwa [get_groups_spawnFromQueue heq] at hg'
      · exact hg'
    have := h gid' group' hsame hq
    rwa [if_neg (fun hc => heq (Option.some.inj hc).symm)] at this

/-! ## Completions and drains -/

/-- What holds between two completions of a drain; `owing` are the completions to come and the
tasks in their last poll. -/
structure Stocked (m : AsyncManager F) (owing : List NodeId) : Prop where
  wf : m.WF
  paid : m.Paid owing
  filled : m.Filled none

/-- The group's part of a completion: the slot the node owed is given back, and filled again. -/
theorem Stocked.settleGroup {owing : List NodeId} {n : NodeId} (h : m.Stocked (n :: owing)) :
    (m.settleGroup (m.groupIdOf n)).Stocked owing := by
  refine ⟨h.wf.settleGroup _, h.paid.settleGroup h.wf, ?_⟩
  cases m.groupIdOf n with
  | none => exact h.filled
  | some gid => exact (h.filled.releaseSlot gid).trySpawnFromGroupQueue

theorem Stocked.startWithin {owing : List NodeId} (h : m.Stocked owing) {n : NodeId}
    (hn : n ∈ m.nodeStates.keys) (f : F) (d : Option ℕ) : (m.startWithin n f d).Stocked owing :=
  ⟨h.wf.startWithin hn f d, h.paid.startWithin n f d, (h.filled.mono _).startWithin f d⟩

theorem Stocked.settle {owing : List NodeId} (h : m.Stocked owing) {n : NodeId}
    {state : AsyncNodeState F} (hs : m.nodeStates.get n = some state) :
    (m.setState n state.settle.1).Stocked owing :=
  ⟨h.wf.settle hs, h.paid.congr rfl (SameProfile.settle hs).groupIdOf rfl, h.filled⟩

/-- **A completion pays for itself**, whatever was cancelled before it. -/
theorem Stocked.processCompletion {owing : List NodeId} {n : NodeId}
    (h : m.Stocked (n :: owing)) : (m.processCompletion n).Stocked owing := by
  cases hs : m.nodeStates.get n with
  | none =>
    rw [processCompletion_of_none hs]
    exact ⟨h.wf, h.paid.drop (by rw [groupIdOf, hs, Option.bind_none]), h.filled⟩
  | some state =>
    have hprof := SameProfile.settle hs
    have hgroup := (h.settle hs).settleGroup
    rw [hprof.groupIdOf, groupIdOf_of_get hs] at hgroup
    rw [processCompletion_of_get hs]
    split
    · refine hgroup.startWithin ?_ _ _
      rw [(hprof.trans (.settleGroup _ _)).mem_keys]
      exact FinMap.mem_keys_of_get hs
    · exact hgroup

theorem Stocked.foldl {owing : List NodeId} {ids : List NodeId} (h : m.Stocked (ids ++ owing)) :
    (ids.foldl AsyncManager.processCompletion m).Stocked owing := by
  induction ids generalizing m with
  | nil => exact h
  | cons n ids ih => exact ih h.processCompletion

/-! ## Triggers and new groups -/

section Spawn

variable {n : NodeId} {policy : AsyncPolicy} {groupId : Option ℕ} {owing : List NodeId}

variable {state : AsyncNodeState F}

/-- An abort stops one task at the most. -/
theorem usage_le_cancelExisting (hs : m.nodeStates.get n = some state) {handle : TaskId}
    (hh : state.inFlight = some handle) (gid : ℕ) :
    m.usage gid ≤ (m.cancelExisting n state).usage gid + 1 := by
  rw [usage_cancelExisting hs hh, usage]
  by_cases hrun : ∃ task ∈ m.runtime.running, task.id = handle
  · obtain ⟨task, ht, rfl⟩ := hrun
    have := m.runtime.countP_filter_ne ht fun t => decide (m.groupIdOf t.nodeId = some gid)
    split at this <;> omega
  · have hall : m.runtime.running.filter (·.id ≠ handle) = m.runtime.running :=
      List.filter_eq_self.mpr fun t ht => by
        simpa using fun hid => hrun ⟨t, ht, hid⟩
    rw [hall]
    omega

/-- Cancelling takes one from the counter for the one task it may stop. If it stops none, the
counter falls behind, and the inequality holds all the more. -/
theorem Paid.cancelExisting (hw : m.WF) (h : m.Paid owing)
    (hs : m.nodeStates.get n = some state) : (m.cancelExisting n state).Paid owing := by
  cases hh : state.inFlight with
  | none => rwa [cancelExisting_of_none hh]
  | some handle =>
    intro gid group hg
    rw [get_groups_cancelExisting hh] at hg
    rw [owed, groupIdOf_cancelExisting hs, ← owed]
    by_cases hgrp : state.groupId = some gid
    · rw [if_pos hgrp] at hg
      obtain ⟨old, hold, rfl⟩ := Option.map_eq_some_iff.mp hg
      have hold := h gid old hold
      have := usage_le_cancelExisting hs hh gid
      simp only
      omega
    · rw [if_neg hgrp] at hg
      rw [usage_cancelExisting_of_ne hw hs hh hgrp]
      exact h gid group hg

theorem Filled.cancelExisting (h : m.Filled none) : (m.cancelExisting n state).Filled
    state.groupId := by
  cases hh : state.inFlight with
  | none =>
    rw [cancelExisting_of_none hh]
    exact h.mono _
  | some handle =>
    intro gid group hg hq
    rw [get_groups_cancelExisting hh] at hg
    by_cases hgrp : state.groupId = some gid
    · rw [if_pos hgrp] at hg ⊢
      obtain ⟨old, hold, rfl⟩ := Option.map_eq_some_iff.mp hg
      have := h gid old hold hq
      simp only [reduceCtorEq, if_false] at this ⊢
      omega
    · rw [if_neg hgrp] at hg
      exact h.mono _ gid group hg hq

/-- **A trigger fills the slot it frees.** -/
theorem Stocked.spawn (h : m.Stocked owing) (hknown : ∀ n' ∈ owing, n' ∈ m.nodeStates.keys)
    (f : F) : (m.spawn n f policy groupId).Stocked owing := by
  have hrec := h.wf.record n policy groupId
  have hpaid : (m.record n policy groupId).Paid owing := Tallied.record h.wf h.paid hknown
  have hfilled : (m.record n policy groupId).Filled none := h.filled
  refine ⟨h.wf.spawn n f policy groupId, ?_, ?_⟩
  all_goals by_cases hp : (m.stateOr n policy groupId).policy.cancels
  · obtain ⟨d, hs⟩ := spawn_of_cancels (f := f) hp
    rw [hs]
    exact (hpaid.cancelExisting hrec get_record).startWithin n f d
  · rw [spawn_of_queue (AsyncPolicy.eq_queue_of_not_cancels hp)]
    split
    · exact hpaid.congr rfl (groupIdOf_setState_of_get get_record rfl) rfl
    · exact hpaid.startWithin n f none
  · obtain ⟨d, hs⟩ := spawn_of_cancels (f := f) hp
    rw [hs]
    have hshort : ((m.record n policy groupId).cancelExisting n
        (m.stateOr n policy groupId)).Filled _ := hfilled.cancelExisting
    rw [← groupIdOf_of_get get_record, ← groupIdOf_cancelExisting get_record] at hshort
    exact hshort.startWithin f d
  · rw [spawn_of_queue (AsyncPolicy.eq_queue_of_not_cancels hp)]
    split
    · exact hfilled
    · exact (hfilled.mono _).startWithin f none

end Spawn

theorem Stocked.createGroup {owing : List NodeId} (h : m.Stocked owing) (max : ℕ) :
    (m.createGroup max).1.Stocked owing := by
  refine ⟨h.wf.createGroup max, fun gid group hg => ?_, fun gid group hg hq => ?_⟩
  · obtain ⟨-, rfl⟩ | ⟨-, hg⟩ := FinMap.get_insert_eq_some.mp hg
    · exact ⟨Nat.zero_le _, Nat.zero_le _⟩
    · exact h.paid gid group hg
  · obtain ⟨-, rfl⟩ | ⟨-, hg⟩ := FinMap.get_insert_eq_some.mp hg
    · exact absurd rfl hq
    · exact h.filled gid group hg hq

/-- A task that leaves the running ones and owes its slot from then on. -/
theorem Paid.remove {owing : List NodeId} (h : m.Paid owing) {task : Task F}
    (ht : task ∈ m.runtime.running) (m' : AsyncManager F)
    (hr : m'.runtime.running = m.runtime.running.filter (·.id ≠ task.id))
    (hid : m'.groupIdOf = m.groupIdOf) (hg : m'.groups = m.groups) {owing' : List NodeId}
    (howing : owing'.Perm (task.nodeId :: owing)) : m'.Paid owing' := by
  intro gid group hgid
  have hcount := m.runtime.countP_filter_ne ht fun t => decide (m.groupIdOf t.nodeId = some gid)
  have hold := h gid group (hg ▸ hgid)
  rw [usage, owed, hr, hid, howing.countP_eq, List.countP_cons]
  simp only [usage, owed] at hold hcount
  omega

/-! ## Queued work starts -/

/-- No task of `m` has gone in `m'`, and handles are still handed out in order. Completions stop
nothing, so what one of them has started is there at the end of the drain. -/
structure Continues (m m' : AsyncManager F) : Prop where
  running : m.runtime.running ⊆ m'.runtime.running
  nextTask : m.runtime.nextTask ≤ m'.runtime.nextTask

theorem Continues.refl (m : AsyncManager F) : Continues m m := ⟨List.Subset.refl _, le_rfl⟩

theorem Continues.trans {m₁ m₂ m₃ : AsyncManager F} (h : Continues m₁ m₂)
    (h' : Continues m₂ m₃) : Continues m₁ m₃ :=
  ⟨List.Subset.trans h.running h'.running, h.nextTask.trans h'.nextTask⟩

/-- Writing the maps is no step of the tasks. -/
theorem Continues.of_runtime {m m' : AsyncManager F} (h : m'.runtime = m.runtime) :
    Continues m m' := by
  refine ⟨?_, ?_⟩ <;> rw [h]
  exact List.Subset.refl _

theorem Continues.start {m m' : AsyncManager F} (h : m'.runtime = m.runtime) (n : NodeId) (f : F)
    (d : Option ℕ) : Continues m (m'.start n f d) := by
  refine ⟨?_, ?_⟩ <;> rw [runtime_start, h]
  · exact List.subset_append_left _ _
  · exact Nat.le_succ _

theorem Continues.startWithin (m : AsyncManager F) (n : NodeId) (f : F) (d : Option ℕ) :
    Continues m (m.startWithin n f d) := by
  obtain ⟨-, hs⟩ | ⟨gid, group, -, -, hs⟩ | ⟨gid, group, -, -, hs⟩ := m.startWithin_cases n f d
  all_goals rw [hs]
  · exact .start rfl n f d
  · exact .start (runtime_setGroup m gid _) n f d
  · exact .of_runtime rfl

theorem Continues.spawnFromQueue (m : AsyncManager F) (gid n : ℕ) :
    Continues m (m.spawnFromQueue gid n) :=
  spawnFromQueue_induction (P := Continues m)
    (fun m' _ _ _ _ h _ _ => h.trans (.start (runtime_setGroup m' gid _) _ _ _)) n (.refl m)

theorem Continues.settleGroup (m : AsyncManager F) (groupId : Option ℕ) :
    Continues m (m.settleGroup groupId) := by
  cases groupId with
  | none => exact .refl m
  | some gid =>
    have hrel : Continues m (m.releaseSlot gid) := .of_runtime (runtime_releaseSlot m gid)
    rw [AsyncManager.settleGroup, AsyncManager.trySpawnFromGroupQueue]
    split
    · exact hrel.trans (.spawnFromQueue _ _ _)
    · exact hrel

theorem Continues.processCompletion (m : AsyncManager F) (n : NodeId) :
    Continues m (m.processCompletion n) := by
  cases hs : m.nodeStates.get n with
  | none => rw [processCompletion_of_none hs]; exact .refl m
  | some state =>
    have h0 : Continues m (m.setState n state.settle.1) := .of_runtime rfl
    have h := h0.trans (.settleGroup _ state.groupId)
    rw [processCompletion_of_get hs]
    split
    · exact h.trans (.startWithin _ _ _ _)
    · exact h

theorem Continues.foldl (m : AsyncManager F) (ids : List NodeId) :
    Continues m (ids.foldl AsyncManager.processCompletion m) := by
  induction ids generalizing m with
  | nil => exact .refl m
  | cons n ids ih => exact (Continues.processCompletion m n).trans (ih _)

/-- A task of the piece of work runs that did not when the next handle was `since`. -/
def Started (m : AsyncManager F) (since : TaskId) (work : QueuedWork F) : Prop :=
  ∃ task ∈ m.runtime.running,
    since ≤ task.id ∧ task.nodeId = work.nodeId ∧ task.future = work.future

theorem Started.mono {m' : AsyncManager F} {since since' : TaskId} {work : QueuedWork F}
    (h : m.Started since work) (hle : since' ≤ since) (hc : Continues m m') :
    m'.Started since' work := by
  obtain ⟨task, ht, hid, hn, hf⟩ := h
  exact ⟨task, hc.running ht, hle.trans hid, hn, hf⟩

section Head

variable {gid max k : ℕ} {work : QueuedWork F} {queue : List (QueuedWork F)}

/-- With a free slot, the first of the queue starts. -/
theorem trySpawnFromGroupQueue_starts (hg : m.groups.get gid = some ⟨max, k, work :: queue⟩)
    (hlt : k < max) : (m.trySpawnFromGroupQueue gid).Started m.runtime.nextTask work := by
  have hfirst : ((m.setGroup gid ⟨max, k + 1, queue⟩).start work.nodeId work.future none).Started
      m.runtime.nextTask work := by
    refine ⟨⟨m.runtime.nextTask, work.nodeId, work.future, none, m.notifier⟩, ?_, le_rfl, rfl, rfl⟩
    rw [runtime_start]
    exact List.mem_append_right _ List.mem_cons_self
  simp only [trySpawnFromGroupQueue, hg, List.length_cons, spawnFromQueue, hlt, if_true]
  exact hfirst.mono le_rfl (.spawnFromQueue _ _ _)

/-- A completion in the group makes the slot free that the first of the queue takes. -/
theorem processCompletion_starts {owing : List NodeId} (h : m.Stocked owing)
    (hg : m.groups.get gid = some ⟨max, k, work :: queue⟩) (hpos : 0 < max) {n : NodeId}
    (hn : m.groupIdOf n = some gid) :
    (m.processCompletion n).Started m.runtime.nextTask work := by
  obtain ⟨state, hs, hgid⟩ := Option.bind_eq_some_iff.mp hn
  have hlt : k - 1 < max := by
    have := (h.paid gid _ hg).2
    simp only at this
    omega
  have hgroup : ((m.setState n state.settle.1).settleGroup state.groupId).Started
      m.runtime.nextTask work := by
    rw [hgid]
    have hrel : ((m.setState n state.settle.1).releaseSlot gid).groups.get gid =
        some ⟨max, k - 1, work :: queue⟩ := by
      rw [get_groups_releaseSlot, if_pos rfl, groups_setState, hg, Option.map_some]
    have := trySpawnFromGroupQueue_starts hrel hlt
    rwa [runtime_releaseSlot] at this
  rw [processCompletion_of_get hs]
  split
  · exact hgroup.mono le_rfl (.startWithin _ _ _ _)
  · exact hgroup

/-- A completion outside the group does not touch the group. -/
theorem get_groups_processCompletion {n : NodeId} (hn : m.groupIdOf n ≠ some gid) :
    (m.processCompletion n).groups.get gid = m.groups.get gid := by
  cases hs : m.nodeStates.get n with
  | none => rw [processCompletion_of_none hs]
  | some state =>
    have hprof := (SameProfile.settle hs).trans (.settleGroup _ state.groupId)
    rw [groupIdOf_of_get hs] at hn
    have hgroup : ((m.setState n state.settle.1).settleGroup state.groupId).groups.get gid =
        m.groups.get gid := by
      cases hg : state.groupId with
      | none => rfl
      | some gid' =>
        have hne : gid ≠ gid' := fun heq => hn (by rw [hg, heq])
        have hrel : ((m.setState n state.settle.1).releaseSlot gid').groups.get gid =
            m.groups.get gid := by rw [get_groups_releaseSlot, if_neg hne, groups_setState]
        rw [settleGroup, trySpawnFromGroupQueue]
        split
        · rw [get_groups_spawnFromQueue hne, hrel]
        · exact hrel
    rw [processCompletion_of_get hs]
    split
    · rw [trySpawn, get_groups_startWithin, hgroup]
      rw [hprof.groupIdOf, groupIdOf_of_get hs]
      exact hn
    · exact hgroup

/-- **Queued work gets the slot of the next completion in its group.** By induction on the
completions of a drain: those outside of the group do not touch it, and the first one inside starts
the work, which then goes on running. -/
theorem foldl_starts {owing ids : List NodeId} (h : m.Stocked (ids ++ owing))
    (hg : m.groups.get gid = some ⟨max, k, work :: queue⟩) (hpos : 0 < max)
    (hids : ∃ n ∈ ids, m.groupIdOf n = some gid) :
    (ids.foldl AsyncManager.processCompletion m).Started m.runtime.nextTask work := by
  induction ids generalizing m with
  | nil =>
    obtain ⟨n, hn, -⟩ := hids
    exact absurd hn List.not_mem_nil
  | cons n ids ih =>
    by_cases hn : m.groupIdOf n = some gid
    · exact (processCompletion_starts h hg hpos hn).mono le_rfl (.foldl _ _)
    · obtain ⟨n', hn', hgid⟩ := hids
      have hmem : n' ∈ ids := (List.mem_cons.mp hn').resolve_left fun heq => hn (heq ▸ hgid)
      have hstart := ih h.processCompletion ((get_groups_processCompletion hn).trans hg)
        ⟨n', hmem, by rw [(SameProfile.processCompletion m n).groupIdOf, hgid]⟩
      exact hstart.mono (Continues.processCompletion m n).nextTask (.refl _)

end Head

end AsyncManager

/-! ## The slots along a run -/

open AsyncManager

namespace PolledSystem

/-- The nodes that owe their group a slot: their task has completed and the result is undrained, or
it is in its last poll. -/
def owing (s : PolledSystem F) : List NodeId :=
  s.manager.resultRx.map Prod.fst ++ s.finishing.map Task.nodeId

/-- How many tasks of a group run, or have completed with the result undrained. -/
def liveIn (s : PolledSystem F) (gid : ℕ) : ℕ :=
  s.running.countP (s.manager.groupIdOf ·.nodeId = some gid) +
    s.manager.resultRx.countP (s.manager.groupIdOf ·.1 = some gid)

theorem liveIn_eq (s : PolledSystem F) (gid : ℕ) :
    s.liveIn gid = s.manager.usage gid + s.manager.owed gid s.owing := by
  simp only [liveIn, running, usage, owed, owing, List.countP_append, List.countP_map,
    Function.comp_def]
  omega

/-- Of each group: it counts no more tasks than it may run at once, it has no free slot while work
is queued, and every slot it counts has a live task. -/
def SlotsKept (s : PolledSystem F) : Prop :=
  ∀ gid group, s.manager.groups.get gid = some group →
    group.inFlight ≤ group.maxConcurrent ∧
    (group.queue ≠ [] → group.inFlight = group.maxConcurrent) ∧
    group.inFlight ≤ s.liveIn gid

/-- The first piece of work of a group's queue starts as soon as a live task of the group has
completed and is drained. -/
structure Moves (s : PolledSystem F) (gid : ℕ) (work : QueuedWork F) : Prop where
  running : ∀ task ∈ s.manager.runtime.running, s.manager.groupIdOf task.nodeId = some gid →
    (run apply s [.call (.complete task.id), .call .drain]).manager.Started
      s.manager.runtime.nextTask work
  finishing : ∀ i task, s.finishing[i]? = some task → s.manager.groupIdOf task.nodeId = some gid →
    (run apply s [.send i, .call .drain]).manager.Started s.manager.runtime.nextTask work
  undrained : ∀ r ∈ s.manager.resultRx, s.manager.groupIdOf r.1 = some gid →
    (run apply s [.call .drain]).manager.Started s.manager.runtime.nextTask work

/-- Queued work of a group that may run anything has a live task to wait for, and starts when that
is done. -/
def QueuedWorkMoves (s : PolledSystem F) : Prop :=
  ∀ gid max k work queue, s.manager.groups.get gid = some ⟨max, k, work :: queue⟩ → 1 ≤ max →
    0 < s.liveIn gid ∧ s.Moves gid work

/-- The account of all groups: it holds between the calls. -/
structure Kept (s : PolledSystem F) : Prop where
  wf : s.WF
  stocked : s.manager.Stocked s.owing

variable {s : PolledSystem F}

theorem Kept.slots (h : s.Kept) : s.SlotsKept := by
  intro gid group hg
  obtain ⟨hpaid, hle⟩ := h.stocked.paid gid group hg
  refine ⟨hle, fun hq => ?_, by rwa [liveIn_eq]⟩
  have := h.stocked.filled gid group hg hq
  simp only [reduceCtorEq, if_false] at this
  omega

theorem WF.mem_keys_of_owing (h : s.WF) : ∀ n ∈ s.owing, n ∈ s.manager.nodeStates.keys := by
  intro n hn
  rcases List.mem_append.mp hn with hn | hn
  · obtain ⟨r, hr, rfl⟩ := List.mem_map.mp hn
    exact h.manager.result_known r hr
  · obtain ⟨task, ht, rfl⟩ := List.mem_map.mp hn
    exact h.known task ht

/-- After a drain only the tasks in their last poll owe a slot. -/
theorem owing_drain (s : PolledSystem F) :
    (s.apply (.call .drain)).owing = s.finishing.map Task.nodeId := by
  have hrx : s.manager.drainResults.1.resultRx = [] := (SameProfile.drainResults s.manager).resultRx
  simp only [owing, apply, AsyncSystem.apply, hrx, List.map_nil, List.nil_append]

theorem owing_spawn (s : PolledSystem F) {n : NodeId} {f : F} {policy : AsyncPolicy}
    {groupId : Option ℕ} : (s.apply (.call (.spawn n f policy groupId))).owing = s.owing := by
  simp only [owing, apply, AsyncSystem.apply, resultRx_spawn]

/-- The account at the start of a drain, with the results taken out of the channel. -/
theorem Kept.taken (h : s.Kept) : Stocked { s.manager with resultRx := [] } s.owing :=
  ⟨h.wf.manager.takeResults, h.stocked.paid, h.stocked.filled⟩

theorem Kept.drain (h : s.Kept) : (s.apply (.call .drain)).manager.Stocked
    (s.apply (.call .drain)).owing := by
  rw [owing_drain]
  exact h.taken.foldl

/-- **Every step keeps the account.** -/
theorem Kept.apply (h : s.Kept) (a : PolledAction F) : (s.apply a).Kept := by
  refine ⟨h.wf.apply a, ?_⟩
  cases a with
  | call a =>
    cases a with
    | createGroup max => exact h.stocked.createGroup max
    | spawn n f policy groupId =>
      rw [owing_spawn]
      exact h.stocked.spawn h.wf.mem_keys_of_owing f
    | complete id =>
      have hw := (h.wf.apply (.call (.complete id))).manager
      obtain heq | ⟨task, hmem, -, heq⟩ := s.manager.complete_cases id
      · have : s.apply (.call (.complete id)) = s := by
          simp only [PolledSystem.apply, AsyncSystem.apply, heq]
        rw [this]
        exact h.stocked
      · have hgroups : (s.manager.complete id).groups = s.manager.groups := by rw [heq]
        have hrun : (s.manager.complete id).runtime.running =
            s.manager.runtime.running.filter (·.id ≠ task.id) := by rw [heq]; rfl
        refine ⟨hw, h.stocked.paid.remove hmem _ hrun (groupIdOf_complete _ id) hgroups ?_,
          fun gid group hg => ?_⟩
        · simp only [owing, PolledSystem.apply, AsyncSystem.apply, heq, List.map_append,
            List.map_cons, List.map_nil, List.append_assoc, List.singleton_append]
          exact List.perm_middle
        · exact h.stocked.filled gid group (hgroups ▸ hg)
    | drain => exact h.drain
  | lastPoll id =>
    have hw := (h.wf.apply (.lastPoll id)).manager
    obtain heq | ⟨task, hmem, heq⟩ := s.lastPoll_cases id
    · rw [heq]
      exact h.stocked
    · rw [heq] at hw ⊢
      -- a task in its last poll owes its slot until its result has been processed
      have howing : (s.manager.resultRx.map Prod.fst ++
          (s.finishing ++ [task]).map Task.nodeId).Perm (task.nodeId :: s.owing) := by
        rw [List.map_append, List.map_singleton, ← List.append_assoc]
        exact List.perm_append_singleton _ _
      have hpaid := h.stocked.paid.remove hmem
        { s.manager with runtime := s.manager.runtime.remove task.id } rfl rfl rfl howing
      exact ⟨hw, hpaid, h.stocked.filled⟩
  | send i =>
    have hw := (h.wf.apply (.send i)).manager
    obtain heq | ⟨task, hperm, heq⟩ := s.send_cases i
    · rw [heq]
      exact h.stocked
    · rw [heq] at hw ⊢
      refine ⟨hw, fun gid group hg => ?_, h.stocked.filled⟩
      have howing : (owing { s with
          manager := s.manager.deliver task
          finishing := s.finishing.eraseIdx i }).Perm s.owing := by
        simp only [owing, deliver, List.map_append, List.map_singleton, List.append_assoc]
        exact (hperm.symm.map Task.nodeId).append_left _
      have := h.stocked.paid gid group hg
      rw [owed, howing.countP_eq]
      exact this

theorem Kept.init : (init : PolledSystem F).Kept := by
  refine ⟨.init, AsyncManager.WF.new, ?_, ?_⟩ <;>
    simp [Paid, Tallied, Filled, PolledSystem.init, AsyncSystem.init, AsyncManager.new]

/-! ### Queued work is not stranded -/

section Moves

variable {gid max k : ℕ} {work : QueuedWork F} {queue : List (QueuedWork F)}

theorem Kept.drain_starts (h : s.Kept)
    (hg : s.manager.groups.get gid = some ⟨max, k, work :: queue⟩) (hpos : 0 < max)
    {r : NodeId × F} (hr : r ∈ s.manager.resultRx) (hgid : s.manager.groupIdOf r.1 = some gid) :
    (s.apply (.call .drain)).manager.Started s.manager.runtime.nextTask work :=
  foldl_starts h.taken hg hpos ⟨r.1, List.mem_map_of_mem hr, hgid⟩

/-- A step that leaves the groups and adds a result of the group is followed by the start, when the
results are drained. -/
theorem Kept.starts_after (h : s.Kept)
    (hg : s.manager.groups.get gid = some ⟨max, k, work :: queue⟩) (hpos : 0 < max)
    {a : PolledAction F} {task : Task F}
    (hgroups : (s.apply a).manager.groups = s.manager.groups)
    (hids : (s.apply a).manager.groupIdOf = s.manager.groupIdOf)
    (hnext : (s.apply a).manager.runtime.nextTask = s.manager.runtime.nextTask)
    (hrx : (task.nodeId, task.future) ∈ (s.apply a).manager.resultRx)
    (hgid : s.manager.groupIdOf task.nodeId = some gid) :
    (run PolledSystem.apply s [a, .call .drain]).manager.Started s.manager.runtime.nextTask
      work := by
  have := (h.apply a).drain_starts (hgroups ▸ hg) hpos hrx (by rw [hids]; exact hgid)
  rwa [hnext] at this

theorem Kept.moves (h : s.Kept)
    (hg : s.manager.groups.get gid = some ⟨max, k, work :: queue⟩) (hpos : 0 < max) :
    s.Moves gid work where
  running task ht hgid := by
    have hc := complete_of_mem ht
    exact h.starts_after hg hpos (by simp only [PolledSystem.apply, AsyncSystem.apply, hc])
      (groupIdOf_complete _ _)
      (by simp only [PolledSystem.apply, AsyncSystem.apply, hc, Runtime.nextTask_finish])
      (by simp only [PolledSystem.apply, AsyncSystem.apply, hc]; exact List.mem_append_right _
            List.mem_cons_self) hgid
  finishing i task hi hgid := by
    have hs : s.apply (.send i) = { s with
        manager := s.manager.deliver task
        finishing := s.finishing.eraseIdx i } := by simp only [PolledSystem.apply, hi]
    refine h.starts_after hg hpos ?_ ?_ ?_ ?_ hgid <;> rw [hs]
    · rfl
    · rfl
    · rfl
    · exact List.mem_append_right _ List.mem_cons_self
  undrained _ hr hgid := h.drain_starts hg hpos hr hgid

theorem Kept.queued_moves (h : s.Kept) : s.QueuedWorkMoves := by
  intro gid max k work queue hg hpos
  refine ⟨?_, h.moves hg hpos⟩
  obtain ⟨-, hfull, hpaid⟩ := h.slots gid _ hg
  have := hfull (by simp)
  simp only at this hpaid
  omega

end Moves

/-- **Slots are neither leaked nor left idle.** In every run, whatever the policies, the groups and
the schedule, and whether or not an abort stops the task it is meant for: a group never counts more
tasks than it may run at once, a group with queued work has no free slot, and every slot it counts
has a live task. So queued work of a group that may run anything waits for a live task, and the
first of it starts when that one is done.

There is no hypothesis. What it does not say is that the tasks that run are within the limit, which
is false of some runs. -/
theorem slots_kept (as : List (PolledAction F)) :
    Always PolledSystem.apply (fun s => s.SlotsKept ∧ s.QueuedWorkMoves) .init as :=
  always_of_step (I := Kept) (fun _ a hi => hi.apply a)
    (fun _ hi => ⟨hi.slots, hi.queued_moves⟩) Kept.init

end PolledSystem

end ReactiveGraph
