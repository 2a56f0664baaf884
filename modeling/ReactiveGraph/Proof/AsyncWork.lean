import Mathlib.Algebra.Order.Group.Multiset
import Mathlib.Tactic.Abel
import ReactiveGraph.Proof.QueuePolicy

/-!
# The work of the async manager

A future that is spawned waits behind an earlier one of its node or for a slot of its group, then it
runs. `stock` is all that waits or runs, of all nodes, whatever their policies and groups. Each
operation says what goes into it and what comes out: a trigger puts its future in, and takes out the
task that it cancels; a completion only moves futures up; a task that is done comes out.

**A multiset, with each future's node.** Order is lost, and that is what makes the account hold
under every policy: what the policies do differently is to move futures between three places, and a
sum over the places does not see it. Where order is the point, for one node under `queue`, there are
lists (`QueuePolicy.lean`).

The sums over all nodes and all groups are the totals of the finite maps, and each lemma here
changes one key of one map; `stock_setState` and `stock_setGroup` say by how much the total changes,
and the operations follow.

Equations are written with the part that leaves on the left side, since multisets cannot be
subtracted without a condition: `stock` after, together with what was taken out, is `stock` before
with what came in.

Results that have been sent are not in stock, nor are tasks in their last poll: the manager has done
with both. The account of a whole run, which counts them too, is in `AsyncRest.lean`.
-/

namespace ReactiveGraph

variable {F : Type*}

namespace AsyncManager

variable {m : AsyncManager F} {n : NodeId} {state : AsyncNodeState F}

/-- The future of a task, with its node. -/
def taskWork (task : Task F) : NodeId × F := (task.nodeId, task.future)

/-- The futures that are parked behind an earlier one of their node. -/
def parkedWork (n : NodeId) (state : AsyncNodeState F) : Multiset (NodeId × F) :=
  ↑(state.pending.map fun future => (n, future))

/-- The futures in a group's queue. -/
def queuedWork (_ : ℕ) (group : ConcurrencyGroupState F) : Multiset (NodeId × F) :=
  ↑(group.queue.map fun work => (work.nodeId, work.future))

/-- The futures that wait or run, wherever the manager has them: in a task, behind another of the
node, or in the queue of a group. -/
def stock (m : AsyncManager F) : Multiset (NodeId × F) :=
  ↑(m.runtime.running.map taskWork) + m.nodeStates.total parkedWork + m.groups.total queuedWork

/-! ## Writing a state or a group -/

theorem stock_setState (m : AsyncManager F) (n : NodeId) (state : AsyncNodeState F) :
    (m.setState n state).stock + (m.nodeStates.get n).elim 0 (parkedWork n) =
      m.stock + parkedWork n state := by
  have htotal := FinMap.total_insert m.nodeStates parkedWork n state
  simp only [stock, runtime_setState, nodeStates_setState, groups_setState]
  calc _ = (m.nodeStates.insert n state).total parkedWork +
        (m.nodeStates.get n).elim 0 (parkedWork n) +
          (↑(m.runtime.running.map taskWork) + m.groups.total queuedWork) := by abel
    _ = _ := by
      rw [htotal]
      abel

theorem stock_setGroup (m : AsyncManager F) (gid : ℕ) (group : ConcurrencyGroupState F) :
    (m.setGroup gid group).stock + (m.groups.get gid).elim 0 (queuedWork gid) =
      m.stock + queuedWork gid group := by
  have htotal := FinMap.total_insert m.groups queuedWork gid group
  simp only [stock, runtime_setGroup, nodeStates_setGroup, groups_setGroup]
  rw [add_assoc, htotal]
  abel

/-- Writing anything but the pending futures. -/
theorem stock_setState_of_pending (hs : m.nodeStates.get n = some state)
    (state' : AsyncNodeState F) (h : state'.pending = state.pending) :
    (m.setState n state').stock = m.stock := by
  have hset := stock_setState m n state'
  rw [hs, Option.elim_some, parkedWork, parkedWork, h] at hset
  exact add_right_cancel hset

/-- Writing anything but the queue. -/
theorem stock_setGroup_of_queue {gid : ℕ} {group : ConcurrencyGroupState F}
    (hg : m.groups.get gid = some group) (group' : ConcurrencyGroupState F)
    (h : group'.queue = group.queue) : (m.setGroup gid group').stock = m.stock := by
  have hset := stock_setGroup m gid group'
  rw [hg, Option.elim_some, queuedWork, queuedWork, h] at hset
  exact add_right_cancel hset

/-! ## Starting -/

theorem stock_start (m : AsyncManager F) (n : NodeId) (f : F) (d : Option ℕ) :
    (m.start n f d).stock = m.stock + {(n, f)} := by
  generalize hm' : ({ m with runtime := m.runtime.spawn n f d m.notifier } : AsyncManager F) = m'
  have hrun : m'.stock = m.stock + {(n, f)} := by
    rw [← hm']
    simp only [stock, Runtime.running_spawn, List.map_append, ← Multiset.coe_add, List.map_cons,
      List.map_nil, taskWork, Multiset.coe_singleton]
    abel
  have hstates : m'.nodeStates = m.nodeStates := by rw [← hm']
  unfold start
  simp only [hm']
  split
  · next state hs =>
    rw [← hstates] at hs
    rw [stock_setState_of_pending hs { state with inFlight := some m.runtime.nextTask } rfl, hrun]
  · exact hrun

/-- A future is running or queued afterwards. It is in stock in either case, and nothing else has
changed. -/
theorem stock_startWithin (m : AsyncManager F) (n : NodeId) (f : F) (d : Option ℕ) :
    (m.startWithin n f d).stock = m.stock + {(n, f)} := by
  obtain ⟨-, h⟩ | ⟨gid, group, hg, -, h⟩ | ⟨gid, group, hg, -, h⟩ := m.startWithin_cases n f d
  · rw [h, stock_start]
  · rw [h, stock_start, stock_setGroup_of_queue (groupOf_eq_some.mp hg).2
      { group with inFlight := group.inFlight + 1 } rfl]
  · have hset := stock_setGroup m gid { group with queue := group.queue ++ [⟨n, f⟩] }
    rw [(groupOf_eq_some.mp hg).2, Option.elim_some] at hset
    have hqueue : queuedWork gid { group with queue := group.queue ++ [⟨n, f⟩] } =
        {(n, f)} + queuedWork gid group := by
      simp only [queuedWork, List.map_append, List.map_cons, List.map_nil, ← Multiset.coe_add,
        Multiset.coe_singleton]
      exact add_comm _ _
    rw [hqueue, ← add_assoc] at hset
    rw [h]
    exact add_right_cancel hset

theorem stock_releaseSlot (m : AsyncManager F) (gid : ℕ) : (m.releaseSlot gid).stock = m.stock := by
  unfold releaseSlot
  split
  · next group hg => exact stock_setGroup_of_queue hg _ rfl
  · rfl

/-! ## Cancelling -/

/-- The running task that a handle names: none, when the handle is that of a task which has sent its
result. -/
def namedWork (m : AsyncManager F) (handle : Option TaskId) : List (NodeId × F) :=
  (m.runtime.running.filter fun task => handle = some task.id).map taskWork

theorem stock_abort (m : AsyncManager F) (handle : TaskId) :
    ({ m with runtime := m.runtime.abort handle } : AsyncManager F).stock +
      ↑(m.namedWork (some handle)) = m.stock := by
  have hsplit : (↑(m.runtime.running.map taskWork) : Multiset (NodeId × F)) =
      ↑((m.runtime.abort handle).running.map taskWork) + ↑(m.namedWork (some handle)) := by
    rw [namedWork, Multiset.coe_add, ← List.map_append, Multiset.coe_eq_coe]
    refine List.Perm.map _ (List.Perm.symm ?_)
    refine (List.Perm.of_eq ?_).trans (List.filter_append_perm (fun task => task.id ≠ handle) _)
    rw [Runtime.running_abort]
    congr 1
    exact List.filter_congr fun task _ => by simp [eq_comm]
  simp only [stock, hsplit]
  abel

/-- A trigger that cancels takes out the task that the node's handle names. The futures that wait
for a slot are not cancelled, whatever the policy. -/
theorem stock_cancelExisting (hs : m.nodeStates.get n = some state) :
    (m.cancelExisting n state).stock + ↑(m.namedWork state.inFlight) = m.stock := by
  unfold cancelExisting
  split
  · next handle hh =>
    have hset : (({ m with runtime := m.runtime.abort handle } : AsyncManager F).setState n
        { state with inFlight := none }).stock + ↑(m.namedWork (some handle)) = m.stock := by
      rw [stock_setState_of_pending (m := { m with runtime := m.runtime.abort handle }) hs
        { state with inFlight := none } rfl]
      exact stock_abort m handle
    simp only [hh]
    split
    · rwa [stock_releaseSlot]
    · exact hset
  · next hh => simp [hh, namedWork]

theorem stock_record (m : AsyncManager F) (n : NodeId) (policy : AsyncPolicy)
    (groupId : Option ℕ) : (m.record n policy groupId).stock = m.stock := by
  cases hs : m.nodeStates.get n with
  | none =>
    have hset := stock_setState m n ⟨policy, none, groupId, []⟩
    rw [record, stateOr_of_none hs]
    rw [hs] at hset
    simpa [parkedWork] using hset
  | some state =>
    rw [record, stateOr_of_get hs]
    exact stock_setState_of_pending hs _ rfl

/-- What a trigger cancels, by the policy that is recorded: the task named by the handle, under the
two policies that cancel. -/
def cancelled (m : AsyncManager F) (n : NodeId) (policy : AsyncPolicy) (groupId : Option ℕ) :
    List (NodeId × F) :=
  if (m.stateOr n policy groupId).policy.cancels then m.namedWork (m.handleOf n) else []

/-- **Spawning** puts the future in and takes out what it cancels. One equation for all policies and
groups. -/
theorem stock_spawn (m : AsyncManager F) (n : NodeId) (f : F) (policy : AsyncPolicy)
    (groupId : Option ℕ) : (m.spawn n f policy groupId).stock + ↑(m.cancelled n policy groupId) =
      m.stock + {(n, f)} := by
  have hrec := stock_record m n policy groupId
  have hget : (m.record n policy groupId).nodeStates.get n = _ := get_record
  unfold cancelled
  by_cases hc : (m.stateOr n policy groupId).policy.cancels
  -- a policy that cancels: the future takes the place of those cancelled
  · obtain ⟨d, h⟩ := spawn_of_cancels (f := f) hc
    have hcancel := stock_cancelExisting hget
    rw [hrec, inFlight_stateOr] at hcancel
    rw [if_pos hc, h, stock_startWithin, add_right_comm]
    exact congrArg (· + _) hcancel
  · rw [if_neg hc, spawn_of_queue (AsyncPolicy.eq_queue_of_not_cancels hc),
      Multiset.coe_nil, add_zero]
    generalize m.stateOr n policy groupId = state at hget ⊢
    -- `Queue`: behind what is there already, or straight to its group
    split
    · have hset := stock_setState (m.record n policy groupId) n
        { state with pending := state.pending ++ [f] }
      have hparked : parkedWork n { state with pending := state.pending ++ [f] } =
          {(n, f)} + parkedWork n state := by
        simp only [parkedWork, List.map_append, List.map_cons, List.map_nil, ← Multiset.coe_add,
          Multiset.coe_singleton]
        exact add_comm _ _
      rw [hget, Option.elim_some, hrec, hparked, ← add_assoc] at hset
      exact add_right_cancel hset
    · rw [stock_startWithin, hrec]

/-! ## Completions -/

/-- Moving up from a group's queue. -/
theorem stock_promote {gid max k : ℕ} {work : QueuedWork F} {queue : List (QueuedWork F)}
    (hg : m.groups.get gid = some ⟨max, k, work :: queue⟩) :
    ((m.setGroup gid ⟨max, k + 1, queue⟩).start work.nodeId work.future none).stock = m.stock := by
  have hset := stock_setGroup m gid ⟨max, k + 1, queue⟩
  have hqueue : queuedWork gid ⟨max, k, work :: queue⟩ =
      {(work.nodeId, work.future)} + queuedWork gid ⟨max, k + 1, queue⟩ := by
    simp only [queuedWork, List.map_cons, ← Multiset.cons_coe, Multiset.singleton_add]
  rw [hg, Option.elim_some, hqueue, ← add_assoc] at hset
  rw [stock_start]
  exact add_right_cancel hset

theorem stock_settleGroup (m : AsyncManager F) (g : Option ℕ) :
    (m.settleGroup g).stock = m.stock := by
  cases g with
  | none => rfl
  | some gid =>
    exact (trySpawnFromGroupQueue_induction
      (P := fun m' => m'.stock = (m.releaseSlot gid).stock)
      (fun _ _ _ _ _ h hg _ => (stock_promote hg).trans h) rfl).trans (stock_releaseSlot m gid)

/-- The node's own part of a completion takes its next future out of the pending ones. -/
theorem stock_settle (hs : m.nodeStates.get n = some state) :
    (m.setState n state.settle.1).stock + state.settle.2.elim 0 (fun future => {(n, future)}) =
      m.stock := by
  have hset := stock_setState m n state.settle.1
  have hparked : parkedWork n state = state.settle.2.elim 0 (fun future => {(n, future)}) +
      parkedWork n state.settle.1 := by
    unfold AsyncNodeState.settle
    split
    · cases hpend : state.pending with
      | nil => simp [parkedWork, hpend]
      | cons f pending => simp [parkedWork, hpend, ← Multiset.cons_coe, Multiset.singleton_add]
    · exact (zero_add _).symm
  rw [hs, Option.elim_some, hparked, ← add_assoc] at hset
  exact add_right_cancel hset

/-- **A completion** moves futures up. Of the completed node or of its group, none is lost and none
is started twice. -/
theorem stock_processCompletion (m : AsyncManager F) (n : NodeId) :
    (m.processCompletion n).stock = m.stock := by
  cases hs : m.nodeStates.get n with
  | none => rw [processCompletion_of_none hs]
  | some state =>
    have hsettle := stock_settle hs
    rw [processCompletion_of_get hs]
    split
    · next future hf =>
      rw [hf, Option.elim_some] at hsettle
      rw [trySpawn, stock_startWithin, stock_settleGroup]
      exact hsettle
    · next hf =>
      rw [hf, Option.elim_none, add_zero] at hsettle
      rw [stock_settleGroup]
      exact hsettle

theorem stock_drainResults (m : AsyncManager F) : m.drainResults.1.stock = m.stock :=
  drainResults_induction (P := fun m' => m'.stock = m.stock)
    (fun m' n h => (stock_processCompletion m' n).trans h) rfl

/-- A task that is no longer listed is out. -/
theorem stock_removed {task : Task F} (ht : task ∈ m.runtime.running) (rt : Runtime F)
    (hrt : rt.running = m.runtime.running.filter (·.id ≠ task.id)) (rx : List (NodeId × F)) :
    ({ m with runtime := rt, resultRx := rx } : AsyncManager F).stock + {taskWork task} =
      m.stock := by
  have hsplit : (↑(m.runtime.running.map taskWork) : Multiset (NodeId × F)) =
      {taskWork task} + ↑(rt.running.map taskWork) := by
    rw [hrt, Multiset.singleton_add, Multiset.cons_coe, ← List.map_cons, Multiset.coe_eq_coe]
    exact (m.runtime.perm_filter_ne ht).map _
  simp only [stock, hsplit]
  abel

theorem stock_createGroup (hw : m.WF) (max : ℕ) : (m.createGroup max).1.stock = m.stock := by
  have hset := stock_setGroup m m.nextGroupId ⟨max, 0, []⟩
  have hnone : m.groups.get m.nextGroupId = none := by
    rw [← FinMap.notMem_keys]
    intro hmem
    exact absurd (hw.group_lt _ hmem) (lt_irrefl _)
  rw [hnone] at hset
  show (m.setGroup m.nextGroupId ⟨max, 0, []⟩).stock = m.stock
  simpa [queuedWork] using hset

end AsyncManager

end ReactiveGraph
