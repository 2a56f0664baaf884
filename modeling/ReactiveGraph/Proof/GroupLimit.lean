import ReactiveGraph.Proof.AsyncRuns

/-!
# The slots of a concurrency group

A group counts its tasks in flight: one more when a task starts, one less when a result is processed
or a handle is aborted. The account behind the counter is

    inFlight = running tasks of the group + results of the group not processed yet

and `Slots` says just that. Every operation keeps it, with one exception: aborting a handle whose
task has completed gives back a slot that the task's result will give back again. So the limit holds
along a run as long as no trigger cancels a completed task (`CancelsRunning`), and not beyond.

Most steps only move one from one side of the account to the other, or count both sides up or down,
and would keep an inequality as well as they keep the equation. They are stated for either
(`Tallied`); `GroupSlots` has the inequality, which the exception does not break.

**What a run is asked for.** That every group is made before a node is put in it: a node may name a
group by a number that no `create_group` gave out, in which case it runs without a limit, until the
number is given out to a new group, whose account its tasks would upset. And that no trigger of a
node in a group finds, under the handle it is about to cancel, a task that has completed. Policies,
limits and schedules are free, and so are nodes in no group.

The runs are those in which an abort ends its task at once. With a task in its last poll the abort
would free a slot whose task goes on running, so the limit can be exceeded in that way too; the runs
here leave this out, and what they show to go wrong does so without it.
-/

namespace ReactiveGraph

open Runs

variable {F : Type*}

namespace AsyncManager

variable {m : AsyncManager F}

/-- The number of running tasks of a group: those of the nodes whose recorded group it is, whether
or not they ever took a slot. -/
def usage (m : AsyncManager F) (gid : ℕ) : ℕ :=
  m.runtime.running.countP (m.groupIdOf ·.nodeId = some gid)

/-- How many of the listed nodes are of a group. -/
def owed (m : AsyncManager F) (gid : ℕ) (ids : List NodeId) : ℕ :=
  ids.countP (m.groupIdOf · = some gid)

/-- In every group the counter stands in this relation to the number of its running tasks and of its
nodes in `ids`; and it keeps to the group's limit. -/
def Tallied (R : ℕ → ℕ → Prop) (m : AsyncManager F) (ids : List NodeId) : Prop :=
  ∀ gid group, m.groups.get gid = some group →
    R group.inFlight (m.usage gid + m.owed gid ids) ∧ group.inFlight ≤ group.maxConcurrent

/-- A group's counter is the number of its running tasks and of its nodes in `ids`, the completions
that have not been processed; and it keeps to the group's limit. Both together bound the running
tasks by the limit. -/
def Slots (m : AsyncManager F) (ids : List NodeId) : Prop := m.Tallied (· = ·) ids

/-- Every group recorded for a node exists. -/
def Grouped (m : AsyncManager F) : Prop :=
  ∀ n gid, m.groupIdOf n = some gid → gid ∈ m.groups.keys

theorem Grouped.groupOf_eq_none (h : m.Grouped) {n : NodeId} (hn : m.groupOf n = none) :
    m.groupIdOf n = none := by
  rw [groupOf_eq] at hn
  cases hid : m.groupIdOf n with
  | none => rfl
  | some gid =>
    obtain ⟨group, hg⟩ := FinMap.exists_get_of_mem_keys (h n gid hid)
    rw [hid, Option.bind_some, hg, Option.map_some] at hn
    exact absurd hn (by simp)

theorem Grouped.mono {m' : AsyncManager F} (h : m.Grouped) (hid : m'.groupIdOf = m.groupIdOf)
    (hk : m.groups.keys ⊆ m'.groups.keys) : m'.Grouped :=
  fun n gid hn => hk (h n gid (by rw [← hid, hn]))

/-! ## One step of the account each -/

theorem usage_start (m : AsyncManager F) (n : NodeId) (f : F) (d : Option ℕ) (gid : ℕ) :
    (m.start n f d).usage gid = m.usage gid + if m.groupIdOf n = some gid then 1 else 0 := by
  simp only [usage, runtime_start, Runtime.running_spawn, List.countP_append, groupIdOf_start,
    List.countP_singleton, decide_eq_true_eq]

@[simp] theorem usage_releaseSlot (m : AsyncManager F) (gid gid' : ℕ) :
    (m.releaseSlot gid).usage gid' = m.usage gid' := by
  simp only [usage, runtime_releaseSlot, groupIdOf_releaseSlot]

@[simp] theorem owed_releaseSlot (m : AsyncManager F) (gid gid' : ℕ) (ids : List NodeId) :
    (m.releaseSlot gid).owed gid' ids = m.owed gid' ids := by
  simp only [owed, groupIdOf_releaseSlot]

theorem owed_cons (m : AsyncManager F) (gid : ℕ) (n : NodeId) (ids : List NodeId) :
    m.owed gid (n :: ids) = m.owed gid ids + if m.groupIdOf n = some gid then 1 else 0 := by
  simp only [owed, List.countP_cons, decide_eq_true_eq]

/-- A relation that stays when both sides are counted up, and when both are counted down. -/
class Counting (R : ℕ → ℕ → Prop) : Prop where
  up : ∀ {a b}, R a b → R (a + 1) (b + 1)
  down : ∀ {a b}, R a (b + 1) → R (a - 1) b

instance : Counting (· = ·) := ⟨by omega, by omega⟩

instance : Counting (· ≤ ·) := ⟨by omega, by omega⟩

section Tallied

variable {R : ℕ → ℕ → Prop} {ids : List NodeId}

theorem Tallied.congr {m' : AsyncManager F} (h : m.Tallied R ids)
    (hr : m'.runtime.running = m.runtime.running) (hid : m'.groupIdOf = m.groupIdOf)
    (hg : m'.groups = m.groups) : m'.Tallied R ids := by
  intro gid group hgid
  simp only [usage, owed, hr, hid]
  exact h gid group (hg ▸ hgid)

theorem Tallied.enqueue (h : m.Tallied R ids) {gid : ℕ} {group : ConcurrencyGroupState F}
    (hg : m.groups.get gid = some group) (queue : List (QueuedWork F)) :
    (m.setGroup gid { group with queue := queue }).Tallied R ids := by
  intro gid' group' hg'
  obtain ⟨rfl, rfl⟩ | ⟨-, hg'⟩ := FinMap.get_insert_eq_some.mp hg'
  · exact h gid' group hg
  · exact h gid' group' hg'

theorem Tallied.drop {n : NodeId} (h : m.Tallied R (n :: ids)) (hn : m.groupIdOf n = none) :
    m.Tallied R ids := by
  intro gid group hg
  have := h gid group hg
  rwa [owed_cons, hn, if_neg (Option.some_ne_none gid).symm] at this

/-- A task that starts in a group with a free slot takes it; what else happens to the group leaves
its limit as it is. -/
theorem Tallied.acquire [Counting R] (h : m.Tallied R ids) {n : NodeId} {gid : ℕ}
    {group : ConcurrencyGroupState F} (hn : m.groupIdOf n = some gid)
    (hg : m.groups.get gid = some group) (hlt : group.inFlight < group.maxConcurrent)
    (queue : List (QueuedWork F)) (f : F) (d : Option ℕ) :
    ((m.setGroup gid ⟨group.maxConcurrent, group.inFlight + 1, queue⟩).start n f d).Tallied
      R ids := by
  intro gid' group' hg'
  have hu : (m.setGroup gid ⟨group.maxConcurrent, group.inFlight + 1, queue⟩).usage gid'
      = m.usage gid' := rfl
  rw [groups_start] at hg'
  rw [usage_start, groupIdOf_setGroup, hn, owed, groupIdOf_start, groupIdOf_setGroup, ← owed, hu]
  obtain ⟨rfl, rfl⟩ | ⟨hne, hg'⟩ := FinMap.get_insert_eq_some.mp hg'
  · rw [if_pos rfl, Nat.add_right_comm]
    exact ⟨Counting.up (h gid' group hg).1, hlt⟩
  · rw [if_neg fun heq => hne (Option.some.inj heq).symm]
    exact h gid' group' hg'

theorem Tallied.promote [Counting R] (h : m.Tallied R ids) (hw : m.WF) {gid max k : ℕ}
    {work : QueuedWork F} {queue : List (QueuedWork F)}
    (hg : m.groups.get gid = some ⟨max, k, work :: queue⟩) (hlt : k < max) :
    ((m.setGroup gid ⟨max, k + 1, queue⟩).start work.nodeId work.future none).Tallied R ids :=
  h.acquire (hw.queue_own gid _ hg work List.mem_cons_self) hg hlt queue _ _

/-- Giving back the slot of one completion, and dropping that completion from the list. For an
equation the counter was positive, since the completion was counted; for an inequality saturation
does no harm. -/
theorem Tallied.releaseSlot [Counting R] {n : NodeId} {gid : ℕ} (h : m.Tallied R (n :: ids))
    (hn : m.groupIdOf n = some gid) : (m.releaseSlot gid).Tallied R ids := by
  intro gid' group' hg'
  rw [get_groups_releaseSlot] at hg'
  rw [usage_releaseSlot, owed_releaseSlot]
  by_cases heq : gid' = gid
  · subst heq
    rw [if_pos rfl] at hg'
    obtain ⟨group, hg, rfl⟩ := Option.map_eq_some_iff.mp hg'
    obtain ⟨hcount, hle⟩ := h gid' group hg
    rw [owed_cons, if_pos hn, ← Nat.add_assoc] at hcount
    exact ⟨Counting.down hcount, (Nat.sub_le _ _).trans hle⟩
  · rw [if_neg heq] at hg'
    have := h gid' group' hg'
    rwa [owed_cons, if_neg fun hid => heq (Option.some.inj (hn.symm.trans hid)).symm] at this

/-- The group's part of a completion: the slot that was owed is given back, and filled again. -/
theorem Tallied.settleGroup [Counting R] {n : NodeId} (h : m.Tallied R (n :: ids)) (hw : m.WF) :
    (m.settleGroup (m.groupIdOf n)).Tallied R ids := by
  cases hn : m.groupIdOf n with
  | none => exact h.drop hn
  | some gid =>
    refine (trySpawnFromGroupQueue_induction (P := fun m' => m'.WF ∧ m'.Tallied R ids) ?_
      ⟨hw.releaseSlot gid, h.releaseSlot hn⟩).2
    rintro m' max k work queue ⟨hw', h'⟩ hg hlt
    exact ⟨hw'.promote hg, h'.promote hw' hg hlt⟩

/-- Starting a future takes a free slot or leaves it waiting, where its node has a group. -/
theorem Tallied.startWithin [Counting R] (h : m.Tallied R ids) {n : NodeId} {f : F} {d : Option ℕ}
    (hnone : m.groupOf n = none → (m.start n f d).Tallied R ids) :
    (m.startWithin n f d).Tallied R ids := by
  obtain ⟨hn, hs⟩ | ⟨gid, group, hg, hlt, hs⟩ | ⟨gid, group, hg, -, hs⟩ :=
    m.startWithin_cases n f d
  · rw [hs]
    exact hnone hn
  · obtain ⟨hid, hg⟩ := groupOf_eq_some.mp hg
    rw [hs]
    exact h.acquire hid hg hlt _ f d
  · rw [hs]
    exact h.enqueue (groupOf_eq_some.mp hg).2 _

/-- Recording a node: no task and no listed completion is of a node that was not known, so it joins
its group with nothing to count. -/
theorem Tallied.record {n : NodeId} {policy : AsyncPolicy} {groupId : Option ℕ} (hw : m.WF)
    (h : m.Tallied R ids) (hknown : ∀ n' ∈ ids, n' ∈ m.nodeStates.keys) :
    (m.record n policy groupId).Tallied R ids := by
  have hgid : ∀ n' ∈ m.nodeStates.keys,
      (m.record n policy groupId).groupIdOf n' = m.groupIdOf n' := by
    intro n' hn'
    by_cases heq : n' = n
    -- A known node keeps the group it has, whatever group this trigger names.
    · subst heq
      rw [groupIdOf_record_of_mem hn']
    · rw [AsyncManager.record, groupIdOf_setState, if_neg heq]
  intro gid group hg
  have hu : (m.record n policy groupId).usage gid = m.usage gid :=
    List.countP_congr fun t ht => by rw [hgid _ (hw.task_known t ht)]
  have ho : (m.record n policy groupId).owed gid ids = m.owed gid ids :=
    List.countP_congr fun n' hn' => by rw [hgid _ (hknown n' hn')]
  rw [hu, ho]
  exact h gid group hg

end Tallied

/-- A task outside every group takes no slot. -/
theorem Slots.start_of_none {ids : List NodeId} (h : m.Slots ids) {n : NodeId}
    (hn : m.groupIdOf n = none) (f : F) (d : Option ℕ) : (m.start n f d).Slots ids := by
  intro gid group hg
  rw [groups_start] at hg
  rw [usage_start, hn, owed, groupIdOf_start]
  exact h gid group hg

theorem Slots.startWithin {ids : List NodeId} (h : m.Slots ids) (hgr : m.Grouped) (n : NodeId)
    (f : F) (d : Option ℕ) : (m.startWithin n f d).Slots ids :=
  Tallied.startWithin h fun hn => h.start_of_none (hgr.groupOf_eq_none hn) f d

/-! ## Completions and drains -/

/-- What holds between two completions of a drain. The list are the completions still to come, which
the counter counts as in flight. -/
structure Account (m : AsyncManager F) (ids : List NodeId) : Prop where
  wf : m.WF
  grouped : m.Grouped
  slots : m.Slots ids

theorem keys_groups_releaseSlot (m : AsyncManager F) (gid : ℕ) :
    (m.releaseSlot gid).groups.keys = m.groups.keys := by
  ext gid'
  rw [FinMap.mem_keys, FinMap.mem_keys, get_groups_releaseSlot]
  split
  · next heq => rw [heq, Option.isSome_map]
  · rfl

theorem keys_groups_settleGroup (m : AsyncManager F) (groupId : Option ℕ) :
    m.groups.keys ⊆ (m.settleGroup groupId).groups.keys := by
  cases groupId with
  | none => exact Finset.Subset.refl _
  | some gid =>
    refine trySpawnFromGroupQueue_induction (P := fun m' => m.groups.keys ⊆ m'.groups.keys) ?_
      (keys_groups_releaseSlot m gid).ge
    rintro m' max k work queue h - -
    rw [groups_start, groups_setGroup, FinMap.keys_insert]
    exact h.trans (Finset.subset_insert _ _)

theorem Account.start {ids : List NodeId} (h : m.Account ids) {n : NodeId}
    (hn : n ∈ m.nodeStates.keys) (f : F) (d : Option ℕ) : (m.startWithin n f d).Account ids := by
  refine ⟨h.wf.startWithin hn f d, h.grouped.mono (by simp) ?_, h.slots.startWithin h.grouped n f d⟩
  obtain ⟨-, hs⟩ | ⟨gid, group, -, -, hs⟩ | ⟨gid, group, -, -, hs⟩ := m.startWithin_cases n f d
  · rw [hs, groups_start]
  · rw [hs, groups_start, groups_setGroup, FinMap.keys_insert]
    exact Finset.subset_insert _ _
  · rw [hs, groups_setGroup, FinMap.keys_insert]
    exact Finset.subset_insert _ _

theorem Account.settle {ids : List NodeId} (h : m.Account ids) {n : NodeId}
    {state : AsyncNodeState F} (hs : m.nodeStates.get n = some state) :
    (m.setState n state.settle.1).Account ids :=
  have hgid := (SameProfile.settle hs).groupIdOf
  ⟨h.wf.settle hs, h.grouped.mono hgid (Finset.Subset.refl _), h.slots.congr rfl hgid rfl⟩

theorem Account.settleGroup {ids : List NodeId} {n : NodeId} (h : m.Account (n :: ids)) :
    (m.settleGroup (m.groupIdOf n)).Account ids :=
  ⟨h.wf.settleGroup _, h.grouped.mono (SameProfile.settleGroup m _).groupIdOf
    (keys_groups_settleGroup m _), h.slots.settleGroup h.wf⟩

/-- **A completion pays for itself**: the slot it gives back is the one its result was counted for.
Then the group's queue moves up, and then the node's own next future, each taking a slot for a
task. -/
theorem Account.processCompletion {ids : List NodeId} {n : NodeId} (h : m.Account (n :: ids)) :
    (m.processCompletion n).Account ids := by
  cases hs : m.nodeStates.get n with
  | none =>
    rw [processCompletion_of_none hs]
    exact ⟨h.wf, h.grouped, h.slots.drop (by rw [groupIdOf, hs, Option.bind_none])⟩
  | some state =>
    have hprof := SameProfile.settle hs
    have hgroup := (h.settle hs).settleGroup
    rw [hprof.groupIdOf, groupIdOf_of_get hs] at hgroup
    rw [processCompletion_of_get hs]
    split
    · refine hgroup.start ?_ _ _
      rw [(hprof.trans (.settleGroup _ _)).mem_keys]
      exact FinMap.mem_keys_of_get hs
    · exact hgroup

theorem Account.foldl {ids : List NodeId} (h : m.Account ids) :
    (ids.foldl AsyncManager.processCompletion m).Account [] := by
  induction ids generalizing m with
  | nil => exact h
  | cons n ids ih => exact ih h.processCompletion

/-- The completions still to be processed are the undrained results. -/
def Accounted (m : AsyncManager F) : Prop := m.Account (m.resultRx.map Prod.fst)

theorem Accounted.drainResults (h : m.Accounted) : m.drainResults.1.Accounted := by
  have hrx : m.drainResults.1.resultRx = [] := (SameProfile.drainResults m).resultRx
  have h0 : Account { m with resultRx := [] } (m.resultRx.map Prod.fst) :=
    ⟨h.wf.takeResults, h.grouped, h.slots⟩
  rw [Accounted, hrx, List.map_nil]
  exact h0.foldl

/-! ## Tasks completing, groups made, triggers -/

/-- A completing task hands its slot on to its result. -/
theorem Accounted.complete (h : m.Accounted) (id : TaskId) : (m.complete id).Accounted := by
  have hw := h.wf.complete id
  have hgid := groupIdOf_complete m id
  obtain heq | ⟨task, ht, -, heq⟩ := m.complete_cases id
  · rwa [heq]
  · have hgroups : (m.complete id).groups = m.groups := by rw [heq]
    refine ⟨hw, h.grouped.mono hgid (by rw [hgroups]), fun gid group hg => ?_⟩
    have hcount := m.runtime.countP_filter_ne ht fun t => decide (m.groupIdOf t.nodeId = some gid)
    have hold := h.slots gid group (hgroups ▸ hg)
    have husage : (m.complete id).usage gid = (m.runtime.running.filter (·.id ≠ task.id)).countP
        fun t => decide (m.groupIdOf t.nodeId = some gid) := by
      rw [usage, hgid, heq]
      rfl
    have howed : (m.complete id).owed gid ((m.complete id).resultRx.map Prod.fst) =
        m.owed gid (m.resultRx.map Prod.fst) +
          if m.groupIdOf task.nodeId = some gid then 1 else 0 := by
      rw [owed, hgid, heq]
      simp [owed, List.countP_append, List.countP_singleton]
    rw [husage, howed]
    simp only [usage, decide_eq_true_eq] at hcount hold
    omega

/-- A group that is made has no slot taken, for no node can have been put in it before. -/
theorem Accounted.createGroup (h : m.Accounted) (max : ℕ) : (m.createGroup max).1.Accounted := by
  refine ⟨h.wf.createGroup max, h.grouped.mono rfl ?_, fun gid group hg => ?_⟩
  · rw [AsyncManager.createGroup, groups_setGroup, FinMap.keys_insert]
    exact Finset.subset_insert _ _
  · have hsame : (m.createGroup max).1.usage gid = m.usage gid ∧
        (m.createGroup max).1.owed gid ((m.createGroup max).1.resultRx.map Prod.fst) =
          m.owed gid (m.resultRx.map Prod.fst) := ⟨rfl, rfl⟩
    rw [hsame.1, hsame.2]
    obtain ⟨rfl, rfl⟩ | ⟨-, hg⟩ := FinMap.get_insert_eq_some.mp hg
    · have hnone : ∀ n, m.groupIdOf n ≠ some m.nextGroupId := fun n hn =>
        absurd (h.wf.group_lt m.nextGroupId (h.grouped n m.nextGroupId hn)) (lt_irrefl _)
      have hu : m.usage m.nextGroupId = 0 := List.countP_eq_zero.mpr fun t _ => by simp [hnone]
      have ho : m.owed m.nextGroupId (m.resultRx.map Prod.fst) = 0 :=
        List.countP_eq_zero.mpr fun t _ => by simp [hnone]
      exact ⟨by rw [hu, ho], Nat.zero_le _⟩
    · exact h.slots gid group hg

section Spawn

variable {n : NodeId} {policy : AsyncPolicy} {groupId : Option ℕ}

/-- Recording a node: it has no task and no result yet, so no group's account changes. -/
theorem Accounted.record (h : m.Accounted)
    (hg : ∀ gid, groupId = some gid → gid ∈ m.groups.keys) :
    (m.record n policy groupId).Accounted := by
  refine ⟨h.wf.record n policy groupId, fun n' gid hn' => ?_, Tallied.record h.wf h.slots ?_⟩
  · by_cases hn : n ∈ m.nodeStates.keys
    · rw [groupIdOf_record_of_mem hn] at hn'
      exact h.grouped n' gid hn'
    · by_cases hne : n' = n
      · rw [AsyncManager.record, groupIdOf_setState, if_pos hne,
          stateOr_of_none (FinMap.notMem_keys.mp hn)] at hn'
        exact hg gid hn'
      · rw [AsyncManager.record, groupIdOf_setState, if_neg hne] at hn'
        exact h.grouped n' gid hn'
  · intro n' hn'
    obtain ⟨r, hr, rfl⟩ := List.mem_map.mp hn'
    exact h.wf.result_known r hr

variable {state : AsyncNodeState F} {handle : TaskId}

/-- With a handle to cancel, the node's group counts one less, whatever became of the task. -/
theorem get_groups_cancelExisting (hh : state.inFlight = some handle) (gid : ℕ) :
    (m.cancelExisting n state).groups.get gid = if state.groupId = some gid
      then (m.groups.get gid).map fun group => { group with inFlight := group.inFlight - 1 }
      else m.groups.get gid := by
  unfold AsyncManager.cancelExisting
  rw [hh]
  cases state.groupId with
  | none => rfl
  | some gid' =>
    simp only [get_groups_releaseSlot, groups_setState, Option.some.injEq]
    by_cases heq : gid = gid'
    · subst heq
      rw [if_pos rfl]
    · rw [if_neg heq, if_neg (Ne.symm heq)]

theorem usage_cancelExisting (hs : m.nodeStates.get n = some state)
    (hh : state.inFlight = some handle) (gid : ℕ) : (m.cancelExisting n state).usage gid =
      (m.runtime.running.filter (·.id ≠ handle)).countP
        fun t => decide (m.groupIdOf t.nodeId = some gid) := by
  rw [usage, groupIdOf_cancelExisting hs, running_cancelExisting, hh]
  congr 1
  exact List.filter_congr fun t _ => by simp [eq_comm]

/-- In another group no task stops, since only the node's own tasks can carry the handle. -/
theorem usage_cancelExisting_of_ne (hw : m.WF) (hs : m.nodeStates.get n = some state)
    (hh : state.inFlight = some handle) {gid : ℕ} (hne : state.groupId ≠ some gid) :
    (m.cancelExisting n state).usage gid = m.usage gid := by
  rw [usage_cancelExisting hs hh, List.countP_filter, usage]
  refine List.countP_congr fun t ht => ?_
  by_cases hid : t.id = handle
  · rw [(hw.handle hs hh).2 t ht hid, groupIdOf_of_get hs]
    simp [hne]
  · simp [hid]

/-- Aborting a task that runs gives back the slot it had. This is the step with the condition: were
the task not running, the slot would be given back for nothing. -/
theorem Accounted.cancelExisting (h : m.Accounted) (hs : m.nodeStates.get n = some state)
    (hrun : ∀ gid, state.groupId = some gid → ∀ handle, state.inFlight = some handle →
      ∃ task ∈ m.runtime.running, task.id = handle) :
    (m.cancelExisting n state).Accounted := by
  cases hh : state.inFlight with
  | none => rwa [cancelExisting_of_none hh]
  | some handle =>
    have hgid := groupIdOf_cancelExisting hs
    refine ⟨h.wf.cancelExisting hs, h.grouped.mono hgid fun gid hk => ?_, fun gid group hg => ?_⟩
    · rw [FinMap.mem_keys, get_groups_cancelExisting hh]
      rw [FinMap.mem_keys] at hk
      split
      · rwa [Option.isSome_map]
      · exact hk
    · rw [resultRx_cancelExisting, owed, hgid]
      rw [get_groups_cancelExisting hh] at hg
      by_cases hgrp : state.groupId = some gid
      -- The slot is given back and the task is gone: both sides of the account lose one.
      · rw [if_pos hgrp] at hg
        obtain ⟨old, hold, rfl⟩ := Option.map_eq_some_iff.mp hg
        obtain ⟨task, ht, rfl⟩ := hrun gid hgrp handle hh
        have hcount := m.runtime.countP_filter_ne ht
          fun t => decide (m.groupIdOf t.nodeId = some gid)
        rw [(h.wf.handle hs hh).2 task ht rfl, groupIdOf_of_get hs, hgrp] at hcount
        have := h.slots gid old hold
        rw [usage_cancelExisting hs hh]
        simp only [usage, owed, decide_true, if_true] at this hcount ⊢
        omega
      · rw [if_neg hgrp] at hg
        rw [usage_cancelExisting_of_ne h.wf hs hh hgrp]
        exact h.slots gid group hg

/-- The task that a trigger of the node would cancel is running, if the node has a group. -/
def CancelsRunning (m : AsyncManager F) (n : NodeId) (policy : AsyncPolicy)
    (groupId : Option ℕ) : Prop :=
  (m.stateOr n policy groupId).policy.cancels → (m.stateOr n policy groupId).groupId ≠ none →
    ∀ handle ∈ m.handleOf n, ∃ task ∈ m.runtime.running, task.id = handle

theorem Accounted.spawn (h : m.Accounted) (hg : ∀ gid, groupId = some gid → gid ∈ m.groups.keys)
    (hc : m.CancelsRunning n policy groupId) (f : F) :
    (m.spawn n f policy groupId).Accounted := by
  have hrec : (m.record n policy groupId).Accounted := h.record hg
  have hrx : (m.spawn n f policy groupId).resultRx = m.resultRx := resultRx_spawn
  by_cases hp : (m.stateOr n policy groupId).policy.cancels
  · obtain ⟨d, hs⟩ := spawn_of_cancels (f := f) hp
    -- the slot of what is cancelled is free again when the new task takes one
    have hcancel := hrec.cancelExisting get_record fun gid hgid handle hh =>
      hc hp (by rw [hgid]; simp) handle (by rw [← inFlight_stateOr, hh]; rfl)
    rw [Accounted, hrx, hs]
    rw [Accounted, resultRx_cancelExisting] at hcancel
    refine hcancel.start ?_ f d
    rw [mem_keys_iff_policyOf, policyOf_cancelExisting get_record, ← mem_keys_iff_policyOf]
    exact FinMap.mem_keys_of_get get_record
  · rw [Accounted, hrx, spawn_of_queue (AsyncPolicy.eq_queue_of_not_cancels hp)]
    split
    · have hgid : ((m.record n policy groupId).setState n { m.stateOr n policy groupId with
          pending := (m.stateOr n policy groupId).pending ++ [f] }).groupIdOf
            = (m.record n policy groupId).groupIdOf := groupIdOf_setState_of_get get_record rfl
      refine ⟨hrec.wf.setState (fun gid hid => ?_) fun k hk => hrec.wf.handle get_record hk,
        hrec.grouped.mono hgid (Finset.Subset.refl _), hrec.slots.congr rfl hgid rfl⟩
      rw [← hid]
      exact (groupIdOf_of_get get_record).symm
    · exact Account.start hrec (FinMap.mem_keys_of_get get_record) f none

end Spawn

end AsyncManager

/-! ## The limit along a run -/

open AsyncManager

/-- Groups are made by `createGroup` before a node is put in them. A program has the number of a
group from the call that made it, so this is what it does. -/
def GroupsCreated (s : AsyncSystem F) : AsyncAction F → Prop
  | .spawn _ _ _ groupId => ∀ gid ∈ groupId, gid ∈ s.manager.groups.keys
  | _ => True

instance (s : AsyncSystem F) : ∀ a, Decidable (GroupsCreated s a)
  | .spawn _ _ _ groupId =>
    inferInstanceAs (Decidable (∀ gid ∈ groupId, gid ∈ s.manager.groups.keys))
  | .createGroup _ | .complete _ | .drain => .isTrue trivial

/-- No trigger of a node in a group cancels a task that has completed. -/
def NoStaleCancel (s : AsyncSystem F) : AsyncAction F → Prop
  | .spawn n _ policy groupId => s.manager.CancelsRunning n policy groupId
  | _ => True

instance (s : AsyncSystem F) : ∀ a, Decidable (NoStaleCancel s a)
  | .spawn n _ policy groupId => inferInstanceAs (Decidable
      ((s.manager.stateOr n policy groupId).policy.cancels →
        (s.manager.stateOr n policy groupId).groupId ≠ none →
          ∀ handle ∈ s.manager.handleOf n, ∃ task ∈ s.manager.runtime.running, task.id = handle))
  | .createGroup _ | .complete _ | .drain => .isTrue trivial

/-- No group has more tasks running than its limit. -/
def WithinLimits (s : AsyncSystem F) : Prop :=
  ∀ gid group, s.manager.groups.get gid = some group →
    s.manager.usage gid ≤ group.maxConcurrent

theorem AsyncManager.Accounted.limited {s : AsyncSystem F} (h : s.manager.Accounted) :
    WithinLimits s := by
  intro gid group hg
  obtain ⟨hcount, hle⟩ := h.slots gid group hg
  omega

theorem AsyncManager.Accounted.apply {s : AsyncSystem F} (h : s.manager.Accounted)
    {a : AsyncAction F} (hg : GroupsCreated s a) (hc : NoStaleCancel s a) :
    (s.apply a).manager.Accounted := by
  cases a with
  | createGroup max => exact h.createGroup max
  | spawn n f policy groupId => exact h.spawn (fun gid hgid => hg gid hgid) hc f
  | complete id => exact h.complete id
  | drain => exact h.drainResults

theorem AsyncManager.Accounted.init : (AsyncSystem.init (F := F)).manager.Accounted :=
  ⟨WF.new, by simp [Grouped, groupIdOf, AsyncSystem.init, AsyncManager.new],
    by simp [Slots, Tallied, AsyncSystem.init, AsyncManager.new]⟩

/-- What `group_in_flight` says, for a group that was never made as well: no node is of such a
group, so nothing runs in it. -/
theorem AsyncManager.Accounted.groupInFlight {m : AsyncManager F} (h : m.Accounted) (gid : ℕ) :
    m.groupInFlight gid = m.usage gid + m.owed gid (m.resultRx.map Prod.fst) := by
  unfold AsyncManager.groupInFlight
  cases hg : m.groups.get gid with
  | some group => exact (h.slots gid group hg).1
  | none =>
    have hno : ∀ n, m.groupIdOf n ≠ some gid := fun n hn =>
      FinMap.notMem_keys.mpr hg (h.grouped n gid hn)
    have husage : m.usage gid = 0 :=
      List.countP_eq_zero.mpr fun t _ => by simpa using hno t.nodeId
    have howed : m.owed gid (m.resultRx.map Prod.fst) = 0 :=
      List.countP_eq_zero.mpr fun n _ => by simpa using hno n
    rw [husage, howed]
    rfl

/-- **A group's limit holds while only running tasks are cancelled.** In a run in which every group
is made before it is used and no trigger of a grouped node finds, under the handle it cancels, a
task that has completed, the running tasks of a group never outnumber its limit.

Both conditions are on the state before a step. The proof carries the whole account, and the limit
is read off it. -/
theorem withinLimits (as : List (AsyncAction F)) (hg : AllSteps AsyncSystem.apply GroupsCreated
    .init as) (hc : AllSteps AsyncSystem.apply NoStaleCancel .init as) :
    Always AsyncSystem.apply WithinLimits .init as := by
  exact always_of_invariant (I := fun s => s.manager.Accounted)
    (fun _ _ hi ha => hi.apply ha.1 ha.2) (fun _ hi => hi.limited) .init (hg.and hc)

/-- In such a run `group_in_flight` is the number of the group's tasks that run or whose results wait
to be drained, in every state. -/
theorem groupInFlight_run (as : List (AsyncAction F)) (hg : AllSteps AsyncSystem.apply GroupsCreated
    .init as) (hc : AllSteps AsyncSystem.apply NoStaleCancel .init as) :
    Always AsyncSystem.apply (fun s => ∀ gid, s.manager.groupInFlight gid =
      s.manager.usage gid + s.manager.owed gid (s.manager.resultRx.map Prod.fst)) .init as :=
  always_of_invariant (I := fun s => s.manager.Accounted)
    (fun _ _ hi ha => hi.apply ha.1 ha.2) (fun _ hi => hi.groupInFlight) .init (hg.and hc)

/-- Two nodes share a group with one slot; the first is triggered again while it runs. -/
theorem withinLimits_shared : Always AsyncSystem.apply WithinLimits .init
    [.createGroup 1, .spawn nodeA 0 .latestWins (some 0), .spawn nodeB 0 .queue (some 0),
      .spawn nodeA 1 .latestWins (some 0), .complete 1, .drain, .complete 2, .drain] :=
  withinLimits _ (by decide) (by decide)

/-- **A group of one can run two tasks.** Node A's task completes and A is triggered again before
the result is drained: the stale handle gives the slot back. Draining the result gives it back once
more, so B starts beside A's second task. -/
theorem group_limit_exceeded : ∃ as : List (AsyncAction ℕ),
    AllSteps AsyncSystem.apply GroupsCreated .init as ∧
      ¬ Always AsyncSystem.apply WithinLimits .init as := by
  refine ⟨[.createGroup 1, .spawn nodeA 0 .latestWins (some 0), .complete 0,
    .spawn nodeA 1 .latestWins (some 0), .drain, .spawn nodeB 0 .latestWins (some 0)],
    by decide, fun h => ?_⟩
  exact absurd (h.last 0 ⟨1, 1, []⟩ rfl) (by decide)

end ReactiveGraph
