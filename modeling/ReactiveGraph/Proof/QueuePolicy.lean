import ReactiveGraph.Proof.GroupSlots

/-!
# What the queue policy guarantees

A future of a node under `queue` moves through five places: the node's pending list, the queue of
its group, the running tasks, the result channel, the drained results. `lineOf` are the futures the
manager has taken up and not finished, the running ones before the waiting ones, and `heldOf` are
these with the pending ones behind them. Two facts carry the file:

- a completion, of whichever node, changes no node's `heldOf`, not even its order: what moves up
  from the group's queue moves from the front of one part to the end of the part before it, and a
  pending future goes behind everything that waits (`heldOf_processCompletion`);
- a trigger adds its future at the end of `lineOf` or at the end of the pending list, and the first
  is not the end of `heldOf` when something is pending.

So nothing is lost or doubled under any schedule, and the order is lost in just two ways: a trigger
that finds no handle while something is pending, and two tasks of the node that run at once. Outside
every group neither happens. In a group both do, because the handle says nothing about the futures
that wait for a slot.

**Three guarantees**, from the weakest assumption to the strongest. `queue_conserves`: in every run,
each future in one place. `queue_fifo`: for a node in no group, first in first out and one at a
time. `queue_sequential`: for a node in a group, the same as long as it is triggered only while
nothing of it waits for a slot; and `queue_overtakes` shows that without this it fails in both ways.

All three are over runs of `PolledSystem`, so an abort of another node's task may come too late; a
node under `queue` itself is never aborted. The first two are for nodes whose recorded policy is
`queue`, which is to say whose first trigger came with it (`policyOf_run`). What a step does to a
node is in one lemma, `step_cases`: a drain, a shuffle of what is unfinished, or a trigger of the
node, of one of two kinds.
-/

namespace ReactiveGraph

open Runs

variable {F : Type*}

namespace AsyncManager

variable {m : AsyncManager F}

/-! ## The line of a node -/

/-- The futures of a node behind its earlier one, oldest first. -/
def pendingOf (m : AsyncManager F) (n : NodeId) : List F :=
  ((m.nodeStates.get n).map AsyncNodeState.pending).getD []

/-- The futures of a node that run, then those that wait in the queue of its group. -/
def lineOf (m : AsyncManager F) (n : NodeId) : List F :=
  (m.tasksOf n).map Task.future ++ m.waitingOf n

def heldOf (m : AsyncManager F) (n : NodeId) : List F := m.lineOf n ++ m.pendingOf n

theorem length_lineOf (m : AsyncManager F) (n : NodeId) : (m.lineOf n).length = m.load n := by
  rw [lineOf, load, List.length_append, List.length_map]

theorem pendingOf_of_get {n : NodeId} {state : AsyncNodeState F}
    (hs : m.nodeStates.get n = some state) : m.pendingOf n = state.pending := by
  rw [pendingOf, hs, Option.map_some, Option.getD_some]

/-- `pendingOf` reads the node states, and nothing else. -/
theorem pendingOf_congr {m' : AsyncManager F} (h : m'.nodeStates = m.nodeStates) :
    m'.pendingOf = m.pendingOf := by
  funext n
  rw [pendingOf, pendingOf, h]

theorem pendingOf_setState (m : AsyncManager F) (n : NodeId) (state : AsyncNodeState F)
    (n' : NodeId) :
    (m.setState n state).pendingOf n' = if n' = n then state.pending else m.pendingOf n' := by
  simp only [pendingOf, nodeStates_setState, FinMap.get_insert]
  split <;> rfl

@[simp] theorem pendingOf_start (m : AsyncManager F) (n : NodeId) (f : F) (d : Option ℕ) :
    (m.start n f d).pendingOf = m.pendingOf := by
  funext n'
  simp only [pendingOf, get_nodeStates_start]
  split
  · next heq => rw [heq]; cases m.nodeStates.get n <;> rfl
  · rfl

@[simp] theorem pendingOf_setGroup (m : AsyncManager F) (gid : ℕ)
    (group : ConcurrencyGroupState F) : (m.setGroup gid group).pendingOf = m.pendingOf := rfl

@[simp] theorem pendingOf_releaseSlot (m : AsyncManager F) (gid : ℕ) :
    (m.releaseSlot gid).pendingOf = m.pendingOf := pendingOf_congr (nodeStates_releaseSlot m gid)

@[simp] theorem pendingOf_startWithin (m : AsyncManager F) (n : NodeId) (f : F) (d : Option ℕ) :
    (m.startWithin n f d).pendingOf = m.pendingOf := by
  obtain ⟨-, h⟩ | ⟨gid, group, -, -, h⟩ | ⟨gid, group, -, -, h⟩ := m.startWithin_cases n f d <;>
    simp [h]

theorem pendingOf_settleGroup (m : AsyncManager F) (groupId : Option ℕ) :
    (m.settleGroup groupId).pendingOf = m.pendingOf := by
  cases groupId with
  | none => rfl
  | some gid =>
    refine trySpawnFromGroupQueue_induction (P := fun m' => m'.pendingOf = m.pendingOf) ?_ ?_
    · intro m' max k work queue h _ _
      rw [pendingOf_start, pendingOf_setGroup, h]
    · rw [pendingOf_releaseSlot]

/-! ## Moves within the line -/

theorem lineOf_start_of_ne {n n' : NodeId} (hn : n' ≠ n) (f : F) (d : Option ℕ) :
    (m.start n f d).lineOf n' = m.lineOf n' := by
  rw [lineOf, waitingOf_start, tasksOf_start, if_neg (Ne.symm hn), lineOf]

/-- A task started while nothing of its node waits is last in the node's line. -/
theorem lineOf_start_self {n : NodeId} (hw : m.waitingOf n = []) (f : F) (d : Option ℕ) :
    (m.start n f d).lineOf n = m.lineOf n ++ [f] := by
  rw [lineOf, waitingOf_start, tasksOf_start, if_pos rfl, lineOf, hw, List.map_append,
    List.append_nil, List.append_nil, List.map_singleton]

theorem lineOf_setGroup_inFlight {gid : ℕ} {group : ConcurrencyGroupState F}
    (hg : m.groups.get gid = some group) (k : ℕ) :
    (m.setGroup gid { group with inFlight := k }).lineOf = m.lineOf := by
  funext n
  rw [lineOf, tasksOf_setGroup, waitingOf_setGroup_inFlight hg, lineOf]

/-- With no free slot left for queued work, what is started or queued goes to the end of the line:
it is queued behind what waits, or nothing waits. A slot that is free while work waits for it is
what would let a trigger overtake; between operations there is none. -/
theorem lineOf_startWithin_self (hf : m.Filled none) (n : NodeId) (f : F) (d : Option ℕ) :
    (m.startWithin n f d).lineOf n = m.lineOf n ++ [f] := by
  obtain ⟨hg, h⟩ | ⟨gid, group, hg, hlt, h⟩ | ⟨gid, group, hg, -, h⟩ := m.startWithin_cases n f d
  · rw [h]
    exact lineOf_start_self (by rw [waitingOf, hg]) f d
  · obtain ⟨hid, hget⟩ := groupOf_eq_some.mp hg
    have hempty : group.queue = [] := by
      by_contra hq
      have := hf gid group hget hq
      simp only [reduceCtorEq, if_false] at this
      omega
    have hwait : m.waitingOf n = [] := by
      rw [waitingOf_of_get hid hget, hempty, List.filter_nil, List.map_nil]
    rw [h, lineOf_start_self (by rwa [waitingOf_setGroup_inFlight hget]),
      lineOf_setGroup_inFlight hget]
  · rw [h, lineOf, tasksOf_setGroup, waitingOf_enqueue hg, if_pos rfl, lineOf, List.append_assoc]

theorem lineOf_startWithin_of_ne {n n' : NodeId} (hn : n' ≠ n) (f : F) (d : Option ℕ) :
    (m.startWithin n f d).lineOf n' = m.lineOf n' := by
  obtain ⟨-, h⟩ | ⟨gid, group, hg, -, h⟩ | ⟨gid, group, hg, -, h⟩ := m.startWithin_cases n f d
  · rw [h, lineOf_start_of_ne hn]
  · rw [h, lineOf_start_of_ne hn, lineOf_setGroup_inFlight (groupOf_eq_some.mp hg).2]
  · rw [h, lineOf, tasksOf_setGroup, waitingOf_enqueue hg, if_neg hn, lineOf]

/-- What moves up from the queue goes from the front of what waits to the end of what runs. In the
line it stays where it is, and so do the futures of all other nodes. -/
theorem lineOf_promote (hw : m.WF) {gid max k : ℕ} {work : QueuedWork F}
    {queue : List (QueuedWork F)} (hg : m.groups.get gid = some ⟨max, k, work :: queue⟩) :
    ((m.setGroup gid ⟨max, k + 1, queue⟩).start work.nodeId work.future none).lineOf
      = m.lineOf := by
  funext n
  rw [lineOf, waitingOf_start, tasksOf_start, lineOf, waitingOf_head hw hg (k + 1) n,
    tasksOf_setGroup]
  by_cases hn : work.nodeId = n
  · rw [if_pos hn, if_pos hn.symm, List.map_append, List.append_assoc]
    rfl
  · rw [if_neg hn, if_neg (Ne.symm hn)]

theorem lineOf_settleGroup (hw : m.WF) (groupId : Option ℕ) :
    (m.settleGroup groupId).lineOf = m.lineOf := by
  cases groupId with
  | none => rfl
  | some gid =>
    refine (trySpawnFromGroupQueue_induction
      (P := fun m' => m'.WF ∧ m'.lineOf = m.lineOf) ?_ ⟨hw.releaseSlot gid, ?_⟩).2
    · rintro m' max k work queue ⟨hw', h⟩ hg -
      exact ⟨hw'.promote hg, by rw [lineOf_promote hw' hg, h]⟩
    · funext n
      rw [lineOf, tasksOf_releaseSlot, waitingOf_releaseSlot, lineOf]

theorem lineOf_settle {n : NodeId} {state : AsyncNodeState F}
    (hs : m.nodeStates.get n = some state) :
    (m.setState n state.settle.1).lineOf = m.lineOf := by
  have hwait : (m.setState n state.settle.1).waitingOf = m.waitingOf :=
    waitingOf_congr rfl (SameProfile.settle hs).groupIdOf
  funext n'
  rw [lineOf, tasksOf_setState, hwait, lineOf]

theorem pending_settle (state : AsyncNodeState F) :
    state.settle.2.toList ++ state.settle.1.pending = state.pending := by
  unfold AsyncNodeState.settle
  split
  · cases state.pending <;> rfl
  · rfl

theorem Filled.settleGroup (h : m.Filled none) (groupId : Option ℕ) :
    (m.settleGroup groupId).Filled none := by
  cases groupId with
  | none => exact h
  | some gid => exact (h.releaseSlot gid).trySpawnFromGroupQueue

/-- The parts of a completion, seen from the lines: the completed node's next future comes to the
end of its line, and nothing else happens. -/
theorem lineOf_processCompletion (hw : m.WF) (hf : m.Filled none) {n : NodeId}
    {state : AsyncNodeState F} (hs : m.nodeStates.get n = some state) (n' : NodeId) :
    (m.processCompletion n).lineOf n' =
      if n' = n then m.lineOf n' ++ state.settle.2.toList else m.lineOf n' := by
  have hgroup : ((m.setState n state.settle.1).settleGroup state.groupId).lineOf = m.lineOf := by
    rw [lineOf_settleGroup (hw.settle hs), lineOf_settle hs]
  have hfilled : ((m.setState n state.settle.1).settleGroup state.groupId).Filled none :=
    Filled.settleGroup (m := m.setState n state.settle.1) hf _
  rw [processCompletion_of_get hs]
  split
  · next future hout =>
    rw [hout, trySpawn]
    by_cases hn : n' = n
    · rw [if_pos hn, hn, lineOf_startWithin_self hfilled, hgroup, Option.toList_some]
    · rw [if_neg hn, lineOf_startWithin_of_ne hn, hgroup]
  · next hout =>
    rw [hout, hgroup, Option.toList_none, List.append_nil, ite_self]

theorem pendingOf_processCompletion {n : NodeId} {state : AsyncNodeState F}
    (hs : m.nodeStates.get n = some state) (n' : NodeId) : (m.processCompletion n).pendingOf n' =
      if n' = n then state.settle.1.pending else m.pendingOf n' := by
  rw [processCompletion_of_get hs]
  split
  · rw [trySpawn, pendingOf_startWithin, pendingOf_settleGroup, pendingOf_setState]
  · rw [pendingOf_settleGroup, pendingOf_setState]

/-- **A completion moves no future past another of the same node.** The node's next future goes from
the front of the pending ones to the end of the line, which is the same place. -/
theorem heldOf_processCompletion (hw : m.WF) (hf : m.Filled none) (n : NodeId) :
    (m.processCompletion n).heldOf = m.heldOf := by
  cases hs : m.nodeStates.get n with
  | none => rw [processCompletion_of_none hs]
  | some state =>
    funext n'
    rw [heldOf, lineOf_processCompletion hw hf hs, pendingOf_processCompletion hs, heldOf]
    by_cases hn : n' = n
    · rw [if_pos hn, if_pos hn, hn, pendingOf_of_get hs, ← pending_settle state, List.append_assoc]
    · rw [if_neg hn, if_neg hn]

/-! ## The handle of a node

A node's handle changes in two ways: it is forgotten when a result of the node is processed, and it
is replaced when a task of the node starts. -/

theorem handleOf_start {n : NodeId} (hn : n ∈ m.nodeStates.keys) (f : F) (d : Option ℕ) :
    (m.start n f d).handleOf n ≠ none := by
  obtain ⟨state, hs⟩ := FinMap.exists_get_of_mem_keys hn
  rw [handleOf, get_nodeStates_start, if_pos rfl, hs]
  simp

theorem handleOf_congr {m' : AsyncManager F} {n : NodeId}
    (h : m'.nodeStates.get n = m.nodeStates.get n) : m'.handleOf n = m.handleOf n := by
  rw [handleOf, handleOf, h]

/-- Between `m` and `m'` no task of the node has started, or one has and the node has its handle. -/
def StartsAt (n : NodeId) (m m' : AsyncManager F) : Prop :=
  (m'.handleOf n = m.handleOf n ∧ m'.tasksOf n = m.tasksOf n) ∨
    (m'.handleOf n ≠ none ∧ m'.tasksOf n ≠ [])

theorem StartsAt.refl (n : NodeId) (m : AsyncManager F) : StartsAt n m m := Or.inl ⟨rfl, rfl⟩

theorem StartsAt.trans {n : NodeId} {m₁ m₂ m₃ : AsyncManager F} (h : StartsAt n m₁ m₂)
    (h' : StartsAt n m₂ m₃) : StartsAt n m₁ m₃ := by
  rcases h' with ⟨hh, ht⟩ | h'
  · rcases h with ⟨hh₁, ht₁⟩ | ⟨hh₁, ht₁⟩
    · exact Or.inl ⟨hh.trans hh₁, ht.trans ht₁⟩
    · exact Or.inr ⟨by rwa [hh], by rwa [ht]⟩
  · exact Or.inr h'

/-- Starting a task, of whichever node, in a manager with the node states and tasks of `m`. -/
theorem StartsAt.start {m' : AsyncManager F} (hr : m'.runtime = m.runtime)
    (hs : m'.nodeStates = m.nodeStates) {n' : NodeId} (hn : n' ∈ m.nodeStates.keys) (f : F)
    (d : Option ℕ) (n : NodeId) : StartsAt n m (m'.start n' f d) := by
  have ht : m'.tasksOf n = m.tasksOf n := by rw [tasksOf, hr, tasksOf]
  by_cases heq : n = n'
  · subst heq
    refine Or.inr ⟨handleOf_start (by rwa [hs]) f d, ?_⟩
    rw [tasksOf_start, if_pos rfl]
    simp
  · refine Or.inl ⟨?_, ?_⟩
    · refine handleOf_congr ?_
      rw [get_nodeStates_start, if_neg heq, hs]
    · rw [tasksOf_start, if_neg (Ne.symm heq), ht]

theorem StartsAt.startWithin {n' : NodeId} (hn : n' ∈ m.nodeStates.keys) (f : F) (d : Option ℕ)
    (n : NodeId) : StartsAt n m (m.startWithin n' f d) := by
  obtain ⟨-, h⟩ | ⟨gid, group, -, -, h⟩ | ⟨gid, group, -, -, h⟩ := m.startWithin_cases n' f d
  all_goals rw [h]
  · exact .start rfl rfl hn f d n
  · exact .start (runtime_setGroup m gid _) (nodeStates_setGroup m gid _) hn f d n
  · exact Or.inl ⟨rfl, rfl⟩

theorem StartsAt.settleGroup (hw : m.WF) (groupId : Option ℕ) (n : NodeId) :
    StartsAt n m (m.settleGroup groupId) := by
  cases groupId with
  | none => exact .refl n m
  | some gid =>
    refine (trySpawnFromGroupQueue_induction
      (P := fun m' => m'.WF ∧ StartsAt n m m') ?_ ⟨hw.releaseSlot gid, Or.inl ⟨?_, ?_⟩⟩).2
    · rintro m' max k work queue ⟨hw', h⟩ hg -
      refine ⟨hw'.promote hg, h.trans ?_⟩
      exact .start (runtime_setGroup m' gid _) (nodeStates_setGroup m' gid _)
        (hw'.known_of_waiting hg List.mem_cons_self) _ _ n
    · exact handleOf_congr (by rw [nodeStates_releaseSlot])
    · rw [tasksOf_releaseSlot]

/-- After the handle of the completed node is forgotten. -/
theorem StartsAt.processCompletion (hw : m.WF) {n : NodeId} {state : AsyncNodeState F}
    (hs : m.nodeStates.get n = some state) (n' : NodeId) :
    StartsAt n' (m.setState n state.settle.1) (m.processCompletion n) := by
  have h := StartsAt.settleGroup (hw.settle hs) state.groupId n'
  rw [processCompletion_of_get hs]
  split
  · refine h.trans (.startWithin ?_ _ _ n')
    rw [((SameProfile.settle hs).trans (.settleGroup _ _)).mem_keys]
    exact FinMap.mem_keys_of_get hs
  · exact h

/-- A handle is held for work that runs or is still owing. It may be for a task whose completion has
been drained and is not processed. -/
def Held (m : AsyncManager F) (owing : List NodeId) (n : NodeId) : Prop :=
  m.handleOf n ≠ none → m.tasksOf n ≠ [] ∨ n ∈ owing

/-- Without a handle nothing of the node runs or is owing. -/
def Unheld (m : AsyncManager F) (owing : List NodeId) (n : NodeId) : Prop :=
  m.handleOf n = none → m.tasksOf n = [] ∧ n ∉ owing

theorem Held.mono {m' : AsyncManager F} {owing : List NodeId} {n : NodeId} (h : m.Held owing n)
    (hs : StartsAt n m m') : m'.Held owing n := by
  intro hh
  rcases hs with ⟨hh', ht⟩ | ⟨-, ht⟩
  · rw [ht]
    exact h (hh' ▸ hh)
  · exact Or.inl ht

theorem Unheld.mono {m' : AsyncManager F} {owing : List NodeId} {n : NodeId}
    (h : m.Unheld owing n) (hs : StartsAt n m m') : m'.Unheld owing n := by
  intro hh
  rcases hs with ⟨hh', ht⟩ | ⟨hh', -⟩
  · rw [ht]
    exact h (hh' ▸ hh)
  · exact absurd hh hh'

/-! ## Completions -/

/-- The policy the manager holds for the node, if it holds one, is `queue`. -/
def Queues (m : AsyncManager F) (n : NodeId) : Prop := ∀ p, m.policyOf n = some p → p = .queue

/-- Work of a node under `queue` is not stranded: its handle, and what is pending, have work of the
node ahead that will be processed. When that completes, the next pending future comes out. -/
structure Backed (m : AsyncManager F) (owing : List NodeId) (n : NodeId) : Prop where
  held : m.Held owing n
  pending : m.pendingOf n ≠ [] → m.lineOf n ≠ [] ∨ n ∈ owing

/-- At most one future of the node has left the pending list and is not drained. -/
structure Single (m : AsyncManager F) (owing : List NodeId) (n : NodeId) : Prop where
  one : m.load n + owing.count n ≤ 1
  unheld : m.Unheld owing n

theorem settle_queue {state : AsyncNodeState F} (h : state.policy = .queue) :
    state.settle = ({ state with inFlight := none, pending := state.pending.tail },
      state.pending.head?) := by
  rw [AsyncNodeState.settle, if_pos h]

theorem handleOf_settle (m : AsyncManager F) (n : NodeId) (state : AsyncNodeState F) :
    (m.setState n state.settle.1).handleOf n = none := by
  rw [handleOf, nodeStates_setState, FinMap.get_insert_self, Option.bind_some, inFlight_settle]

theorem handleOf_setState_of_ne {n n' : NodeId} (hn : n' ≠ n) (state : AsyncNodeState F) :
    (m.setState n state).handleOf n' = m.handleOf n' :=
  handleOf_congr (by rw [nodeStates_setState, FinMap.get_insert, if_neg hn])

/-- A completion of another node leaves the node's debts as they were. -/
theorem mem_owing_of_ne {owing : List NodeId} {n n' : NodeId} (hn : n ≠ n') :
    n ∈ n' :: owing ↔ n ∈ owing := by
  rw [List.mem_cons, or_iff_right hn]

theorem Backed.processCompletion {owing : List NodeId} {n n' : NodeId} (hw : m.WF)
    (hf : m.Filled none) (hq : m.Queues n) (h : m.Backed (n' :: owing) n) :
    (m.processCompletion n').Backed owing n := by
  cases hs : m.nodeStates.get n' with
  | none =>
    rw [processCompletion_of_none hs]
    by_cases hn : n = n'
    · subst hn
      refine ⟨fun hh => absurd ?_ hh, fun hp => absurd ?_ hp⟩
      · rw [handleOf, hs, Option.bind_none]
      · rw [pendingOf, hs, Option.map_none, Option.getD_none]
    · exact ⟨fun hh => (h.held hh).imp_right (mem_owing_of_ne hn).mp,
        fun hp => (h.pending hp).imp_right (mem_owing_of_ne hn).mp⟩
  | some state =>
    have hstarts := StartsAt.processCompletion hw hs n
    by_cases hn : n = n'
    · -- its own completion: the handle is forgotten, and the next pending future is in the line
      subst hn
      have hpolicy : state.policy = .queue := hq _ (policyOf_of_get hs)
      refine ⟨Held.mono (fun hh => absurd (handleOf_settle m n state) hh) hstarts, fun hp => ?_⟩
      rw [pendingOf_processCompletion hs, if_pos rfl, settle_queue hpolicy] at hp
      rw [lineOf_processCompletion hw hf hs, if_pos rfl, settle_queue hpolicy]
      refine Or.inl fun hnil => hp ?_
      cases hpend : state.pending with
      | nil => simp
      | cons p ps =>
        rw [hpend] at hnil
        exact absurd (List.append_eq_nil_iff.mp hnil).2 (by simp)
    · refine ⟨Held.mono (fun hh => ?_) hstarts, fun hp => ?_⟩
      · rw [handleOf_setState_of_ne hn] at hh
        exact (h.held hh).imp_right (mem_owing_of_ne hn).mp
      · rw [pendingOf_processCompletion hs, if_neg hn] at hp
        rw [lineOf_processCompletion hw hf hs, if_neg hn]
        exact (h.pending hp).imp_right (mem_owing_of_ne hn).mp

theorem Single.processCompletion {owing : List NodeId} {n n' : NodeId} (hw : m.WF)
    (hf : m.Filled none) (h : m.Single (n' :: owing) n) :
    (m.processCompletion n').Single owing n := by
  have hone := h.one
  rw [List.count_cons] at hone
  cases hs : m.nodeStates.get n' with
  | none =>
    rw [processCompletion_of_none hs]
    refine ⟨by omega, fun hh => ?_⟩
    obtain ⟨ht, hno⟩ := h.unheld hh
    exact ⟨ht, fun hmem => hno (List.mem_cons_of_mem _ hmem)⟩
  | some state =>
    have hstarts := StartsAt.processCompletion hw hs n
    have hload : (m.processCompletion n').load n =
        m.load n + if n = n' then state.settle.2.toList.length else 0 := by
      rw [← length_lineOf, lineOf_processCompletion hw hf hs, ← length_lineOf]
      split
      · rw [List.length_append]
      · rfl
    by_cases hn : n = n'
    · -- its own completion was its only work: the line was empty
      subst hn
      simp only [beq_self_eq_true, if_true] at hone
      have hzero : m.load n = 0 := by omega
      have hout : state.settle.2.toList.length ≤ 1 := by cases state.settle.2 <;> simp
      refine ⟨by rw [hload, if_pos rfl]; omega, Unheld.mono (fun _ => ⟨?_, ?_⟩) hstarts⟩
      · rw [load, Nat.add_eq_zero_iff, List.length_eq_zero_iff] at hzero
        exact hzero.1
      · exact List.count_eq_zero.mp (by omega)
    · refine ⟨by rw [hload, if_neg hn]; omega, Unheld.mono (fun hh => ?_) hstarts⟩
      rw [handleOf_setState_of_ne hn] at hh
      obtain ⟨ht, hno⟩ := h.unheld hh
      exact ⟨ht, fun hmem => hno (List.mem_cons_of_mem _ hmem)⟩

/-! ## Drains -/

section Drain

variable {owing ids : List NodeId} {n : NodeId}

theorem heldOf_foldl (h : m.Stocked (ids ++ owing)) :
    (ids.foldl AsyncManager.processCompletion m).heldOf = m.heldOf := by
  induction ids generalizing m with
  | nil => rfl
  | cons n ids ih =>
    rw [List.foldl_cons, ih h.processCompletion, heldOf_processCompletion h.wf h.filled]

theorem Backed.foldl (hst : m.Stocked (ids ++ owing)) (hq : m.Queues n)
    (h : m.Backed (ids ++ owing) n) :
    (ids.foldl AsyncManager.processCompletion m).Backed owing n := by
  induction ids generalizing m with
  | nil => exact h
  | cons n' ids ih =>
    refine ih hst.processCompletion (fun p hp => hq p ?_)
      (h.processCompletion hst.wf hst.filled hq)
    rwa [(SameProfile.processCompletion m n').policyOf] at hp

theorem Single.foldl (hst : m.Stocked (ids ++ owing)) (h : m.Single (ids ++ owing) n) :
    (ids.foldl AsyncManager.processCompletion m).Single owing n := by
  induction ids generalizing m with
  | nil => exact h
  | cons n' ids ih => exact ih hst.processCompletion (h.processCompletion hst.wf hst.filled)

end Drain

/-! ## Triggers -/

section Spawn

variable {n : NodeId} {policy : AsyncPolicy} {groupId : Option ℕ}

theorem get_nodeStates_startWithin_of_ne {n' : NodeId} (hn : n' ≠ n) (f : F) (d : Option ℕ) :
    (m.startWithin n f d).nodeStates.get n' = m.nodeStates.get n' := by
  obtain ⟨-, h⟩ | ⟨gid, group, -, -, h⟩ | ⟨gid, group, -, -, h⟩ := m.startWithin_cases n f d <;>
    rw [h]
  · rw [get_nodeStates_start, if_neg hn]
  · rw [get_nodeStates_start, if_neg hn, nodeStates_setGroup]
  · rw [nodeStates_setGroup]

theorem get_nodeStates_cancelExisting_of_ne {state : AsyncNodeState F} {n' : NodeId}
    (hn : n' ≠ n) : (m.cancelExisting n state).nodeStates.get n' = m.nodeStates.get n' := by
  unfold cancelExisting
  split
  · split
    · rw [nodeStates_releaseSlot, nodeStates_setState, FinMap.get_insert, if_neg hn]
    · rw [nodeStates_setState, FinMap.get_insert, if_neg hn]
  · rfl

/-- A trigger writes the state of its own node only. -/
theorem get_nodeStates_spawn_of_ne {n' : NodeId} (hn : n' ≠ n) (f : F) :
    (m.spawn n f policy groupId).nodeStates.get n' = m.nodeStates.get n' := by
  by_cases hc : (m.stateOr n policy groupId).policy.cancels
  · obtain ⟨d, h⟩ := spawn_of_cancels (f := f) hc
    rw [h, get_nodeStates_startWithin_of_ne hn, get_nodeStates_cancelExisting_of_ne hn,
      get_record_of_ne hn]
  · rw [spawn_of_queue (AsyncPolicy.eq_queue_of_not_cancels hc)]
    split
    · rw [nodeStates_setState, FinMap.get_insert, if_neg hn, get_record_of_ne hn]
    · rw [get_nodeStates_startWithin_of_ne hn, get_record_of_ne hn]

theorem lineOf_record (hw : m.WF) : (m.record n policy groupId).lineOf = m.lineOf := by
  funext n'
  rw [lineOf, waitingOf_record hw, lineOf]
  rfl

theorem lineOf_spawn_of_ne (hw : m.WF) {n' : NodeId} (hn : n' ≠ n) (f : F) :
    (m.spawn n f policy groupId).lineOf n' = m.lineOf n' := by
  have hrec := hw.record n policy groupId
  by_cases hc : (m.stateOr n policy groupId).policy.cancels
  · obtain ⟨d, h⟩ := spawn_of_cancels (f := f) hc
    rw [h, lineOf_startWithin_of_ne hn, lineOf, tasksOf_cancelExisting_of_ne hrec get_record hn,
      waitingOf_cancelExisting get_record, ← lineOf, lineOf_record hw]
  · rw [spawn_of_queue (AsyncPolicy.eq_queue_of_not_cancels hc)]
    split
    · have hwait : ((m.record n policy groupId).setState n { m.stateOr n policy groupId with
          pending := (m.stateOr n policy groupId).pending ++ [f] }).waitingOf =
          (m.record n policy groupId).waitingOf :=
        waitingOf_congr rfl (groupIdOf_setState_of_get get_record rfl)
      rw [lineOf, hwait, tasksOf_setState, ← lineOf, lineOf_record hw]
    · rw [lineOf_startWithin_of_ne hn, lineOf_record hw]

theorem pending_stateOr (m : AsyncManager F) (n : NodeId) (policy : AsyncPolicy)
    (groupId : Option ℕ) : (m.stateOr n policy groupId).pending = m.pendingOf n := by
  unfold stateOr pendingOf
  cases m.nodeStates.get n <;> rfl

theorem handleOf_record : (m.record n policy groupId).handleOf n = m.handleOf n := by
  rw [handleOf, get_record, Option.bind_some, inFlight_stateOr]

theorem pendingOf_record : (m.record n policy groupId).pendingOf n = m.pendingOf n := by
  rw [pendingOf_of_get get_record, pending_stateOr]

/-- A trigger of a node under `queue` that holds a handle: its future is pending. -/
structure Pends (n : NodeId) (f : F) (m m' : AsyncManager F) : Prop where
  handle : m.handleOf n ≠ none
  handleOf : m'.handleOf n = m.handleOf n
  tasksOf : m'.tasksOf n = m.tasksOf n
  lineOf : m'.lineOf n = m.lineOf n
  pendingOf : m'.pendingOf n = m.pendingOf n ++ [f]

/-- A trigger of a node under `queue` that holds none: its future is in the line. -/
structure Lines (n : NodeId) (f : F) (m m' : AsyncManager F) : Prop where
  handle : m.handleOf n = none
  starts : StartsAt n m m'
  lineOf : m'.lineOf n = m.lineOf n ++ [f]
  pendingOf : m'.pendingOf n = m.pendingOf n

/-- The two things a trigger under `queue` does. -/
theorem spawn_queue_cases (hw : m.WF) (hf : m.Filled none)
    (hp : (m.stateOr n policy groupId).policy = .queue) (f : F) :
    Pends n f m (m.spawn n f policy groupId) ∨ Lines n f m (m.spawn n f policy groupId) := by
  rw [spawn_of_queue hp]
  split
  · next hsome =>
    -- something of the node is in flight: the future is pending behind it
    have hwait : ((m.record n policy groupId).setState n { m.stateOr n policy groupId with
        pending := (m.stateOr n policy groupId).pending ++ [f] }).waitingOf = m.waitingOf := by
      rw [← waitingOf_record hw n policy groupId]
      exact waitingOf_congr rfl (groupIdOf_setState_of_get get_record rfl)
    refine Or.inl ⟨?_, ?_, rfl, ?_, ?_⟩
    · rw [inFlight_stateOr] at hsome
      exact Option.isSome_iff_ne_none.mp hsome
    · rw [AsyncManager.handleOf, nodeStates_setState, FinMap.get_insert_self, Option.bind_some,
        inFlight_stateOr]
    · rw [AsyncManager.lineOf, hwait, AsyncManager.lineOf]
      rfl
    · rw [pendingOf_setState, if_pos rfl, pending_stateOr]
  · next hnone =>
    -- nothing is in flight: the future goes to the group, or runs at once
    have hkey : n ∈ (m.record n policy groupId).nodeStates.keys :=
      FinMap.mem_keys_of_get get_record
    refine Or.inr ⟨?_, ?_, ?_, ?_⟩
    · rw [inFlight_stateOr] at hnone
      exact Option.not_isSome_iff_eq_none.mp hnone
    · exact StartsAt.trans (Or.inl ⟨handleOf_record, rfl⟩) (.startWithin hkey f none n)
    · have hfr : (m.record n policy groupId).Filled none := hf
      rw [lineOf_startWithin_self hfr, lineOf_record hw]
    · rw [pendingOf_startWithin, pendingOf_record]

end Spawn

end AsyncManager

/-! ## The places of a future, along a run -/

open AsyncManager

namespace PolledSystem

variable {s : PolledSystem F} {n : NodeId}

/-- The futures of a node that have left its pending list and are not drained: those in the result
channel, those that run, those in the queue of its group. -/
def aheadOf (s : PolledSystem F) (n : NodeId) : List F :=
  s.unfinishedOf n ++ s.manager.waitingOf n

theorem aheadOf_eq (s : PolledSystem F) (n : NodeId) : s.aheadOf n =
    s.manager.resultsOf n ++ s.finishingOf n ++ s.manager.lineOf n := by
  simp only [aheadOf, unfinishedOf, runningOf, running, finishingOf, lineOf, tasksOf,
    List.filter_append, List.map_append, List.append_assoc]

theorem length_aheadOf (s : PolledSystem F) (n : NodeId) :
    (s.aheadOf n).length = s.manager.load n + s.owing.count n := by
  have hres : (s.manager.resultsOf n).length = (s.manager.resultRx.map Prod.fst).count n := by
    rw [resultsOf, List.length_map, ← List.countP_eq_length_filter, List.count, List.countP_map]
    exact List.countP_congr fun r _ => by simp
  have hfin : (s.finishingOf n).length = (s.finishing.map Task.nodeId).count n := by
    rw [finishingOf, List.length_map, ← List.countP_eq_length_filter, List.count, List.countP_map]
    exact List.countP_congr fun r _ => by simp
  rw [aheadOf_eq, List.length_append, List.length_append, length_lineOf, hres, hfin, owing,
    List.count_append]
  omega

theorem mem_owing_iff (s : PolledSystem F) (n : NodeId) :
    n ∈ s.owing ↔ s.manager.resultsOf n ++ s.finishingOf n ≠ [] := by
  rw [owing, List.mem_append, ne_eq, List.append_eq_nil_iff, not_and_or]
  refine or_congr ?_ ?_
  · simp [resultsOf, List.map_eq_nil_iff, List.filter_eq_nil_iff]
  · simp [finishingOf, List.map_eq_nil_iff, List.filter_eq_nil_iff]

theorem unfinishedOf_eq_nil (s : PolledSystem F) (n : NodeId) :
    s.unfinishedOf n = [] ↔ s.manager.tasksOf n = [] ∧ n ∉ s.owing := by
  have heq : s.unfinishedOf n = s.manager.resultsOf n ++ s.finishingOf n ++
      (s.manager.tasksOf n).map Task.future := by
    simp only [unfinishedOf, runningOf, running, finishingOf, tasksOf, List.filter_append,
      List.map_append, List.append_assoc]
  rw [heq, mem_owing_iff, not_not, List.append_eq_nil_iff, List.map_eq_nil_iff, and_comm]

theorem aheadOf_eq_nil (s : PolledSystem F) (n : NodeId) :
    s.aheadOf n = [] ↔ s.manager.lineOf n = [] ∧ n ∉ s.owing := by
  rw [aheadOf_eq, mem_owing_iff, not_not, List.append_eq_nil_iff, and_comm]

/-! ### Steps of the tasks

A task that completes, comes to its last poll or sends moves its future from one part of `aheadOf`
to another. -/

/-- Nothing of the node has come, gone or moved between `s` and `s'`, except among its unfinished
futures. -/
structure Shuffles (n : NodeId) (s s' : PolledSystem F) : Prop where
  unfinished : (s'.unfinishedOf n).Perm (s.unfinishedOf n)
  waitingOf : s'.manager.waitingOf n = s.manager.waitingOf n
  state : s'.manager.nodeStates.get n = s.manager.nodeStates.get n
  drainedOf : s'.drainedOf n = s.drainedOf n
  spawnedOf : s'.spawnedOf n = s.spawnedOf n

/-- The futures of one node, of a list with a task more. -/
theorem map_filter_cons_perm {l l' : List (Task F)} {task : Task F} (h : l.Perm (task :: l'))
    (n : NodeId) : ((l.filter (·.nodeId = n)).map Task.future).Perm
      ((if task.nodeId = n then [task.future] else []) ++
        (l'.filter (·.nodeId = n)).map Task.future) := by
  refine ((h.filter _).map _).trans ?_
  by_cases hn : task.nodeId = n <;> simp [hn]

theorem Shuffles.refl (n : NodeId) (s : PolledSystem F) : Shuffles n s s :=
  ⟨.refl _, rfl, rfl, rfl, rfl⟩

theorem Shuffles.complete (s : PolledSystem F) (id : TaskId) (n : NodeId) :
    Shuffles n s (s.apply (.call (.complete id))) := by
  obtain heq | ⟨task, hmem, -, heq⟩ := s.manager.complete_cases id
  · have : s.apply (.call (.complete id)) = s := by
      simp only [PolledSystem.apply, AsyncSystem.apply, heq]
    rw [this]
    exact .refl n s
  · have hs : s.apply (.call (.complete id)) = { s with manager := { s.manager with
        runtime := s.manager.runtime.finish task
        resultRx := s.manager.resultRx ++ [(task.nodeId, task.future)] } } := by
      simp only [PolledSystem.apply, AsyncSystem.apply, heq]
    rw [hs]
    refine ⟨?_, rfl, rfl, rfl, rfl⟩
    have hrun : s.running.Perm (task :: (s.finishing ++
        s.manager.runtime.running.filter (·.id ≠ task.id))) :=
      ((s.manager.runtime.perm_filter_ne hmem).append_left _).trans List.perm_middle
    refine List.Perm.trans ?_ ((map_filter_cons_perm hrun n).symm.append_left _)
    simp only [unfinishedOf, runningOf, running, resultsOf, Runtime.running_finish,
      List.filter_append, List.map_append, List.append_assoc]
    refine List.Perm.append_left _ ?_
    by_cases hn : task.nodeId = n <;> simp [hn]

theorem Shuffles.lastPoll (s : PolledSystem F) (id : TaskId) (n : NodeId) :
    Shuffles n s (s.apply (.lastPoll id)) := by
  have hrun := s.running_lastPoll id
  obtain heq | ⟨task, -, heq⟩ := s.lastPoll_cases id
  · rw [heq]
    exact .refl n s
  · rw [heq] at hrun ⊢
    exact ⟨List.Perm.append_left _ ((hrun.filter _).map _), rfl, rfl, rfl, rfl⟩

theorem Shuffles.send (s : PolledSystem F) (i : ℕ) (n : NodeId) :
    Shuffles n s (s.apply (.send i)) := by
  obtain heq | ⟨task, hperm, heq⟩ := s.send_cases i
  · rw [heq]
    exact .refl n s
  · rw [heq]
    refine ⟨?_, rfl, rfl, rfl, rfl⟩
    have hrun : s.running.Perm (task :: (s.finishing.eraseIdx i ++ s.manager.runtime.running)) :=
      hperm.append_right _
    refine List.Perm.trans ?_ ((map_filter_cons_perm hrun n).symm.append_left _)
    simp only [unfinishedOf, runningOf, running, resultsOf, deliver, List.filter_append,
      List.map_append, List.append_assoc]
    refine List.Perm.append_left _ ?_
    by_cases hn : task.nodeId = n <;> simp [hn]

theorem Shuffles.createGroup (h : s.WF) (max : ℕ) (n : NodeId) :
    Shuffles n s (s.apply (.call (.createGroup max))) :=
  ⟨.refl _, congrFun (waitingOf_createGroup h.manager max) n, rfl, rfl, rfl⟩

/-- Another node's trigger. -/
theorem Shuffles.spawn (h : s.WF) {n n' : NodeId} (hn : n ≠ n') (f : F) (policy : AsyncPolicy)
    (groupId : Option ℕ) : Shuffles n s (s.apply (.call (.spawn n' f policy groupId))) := by
  have htasks : (s.manager.spawn n' f policy groupId).tasksOf n = s.manager.tasksOf n :=
    tasksOf_spawn_of_ne h.manager hn
  have hline : (s.manager.spawn n' f policy groupId).lineOf n = s.manager.lineOf n :=
    lineOf_spawn_of_ne h.manager hn f
  rw [lineOf, lineOf, htasks] at hline
  refine ⟨List.Perm.of_eq ?_, List.append_cancel_left hline, get_nodeStates_spawn_of_ne hn f, rfl,
    ?_⟩
  · simp only [tasksOf] at htasks
    simp only [unfinishedOf, runningOf, running, resultsOf, PolledSystem.apply, AsyncSystem.apply,
      resultRx_spawn, List.filter_append, List.map_append, htasks]
  · simp [AsyncSystem.spawnedOf, PolledSystem.apply, AsyncSystem.apply, Ne.symm hn]

/-- What a step can do, seen from a node under `queue`. The proofs about runs go by these cases and
not by the actions. -/
theorem step_cases (h : s.Kept) {n : NodeId} {a : PolledAction F}
    (hq : (s.apply a).manager.Queues n) :
    a = .call .drain ∨ Shuffles n s (s.apply a) ∨
      ∃ f policy groupId, a = .call (.spawn n f policy groupId) ∧
        (Pends n f s.manager (s.apply a).manager ∨ Lines n f s.manager (s.apply a).manager) := by
  cases a with
  | call a =>
    cases a with
    | createGroup max => exact Or.inr (Or.inl (.createGroup h.wf max n))
    | spawn n' f policy groupId =>
      by_cases hn : n = n'
      · subst hn
        refine Or.inr (Or.inr ⟨f, policy, groupId, rfl, ?_⟩)
        refine spawn_queue_cases h.wf.manager h.stocked.filled (hq _ ?_) f
        rw [PolledSystem.apply, AsyncSystem.apply, policyOf_spawn, record, policyOf_setState,
          if_pos rfl]
      · exact Or.inr (Or.inl (.spawn h.wf hn f policy groupId))
    | complete id => exact Or.inr (Or.inl (.complete s id n))
    | drain => exact Or.inl rfl
  | lastPoll id => exact Or.inr (Or.inl (.lastPoll s id n))
  | send i => exact Or.inr (Or.inl (.send s i n))

/-! ### Nothing is stranded -/

/-- `Backed`, in terms of the futures. -/
theorem backed_iff : s.manager.Backed s.owing n ↔
    (s.manager.handleOf n ≠ none → s.unfinishedOf n ≠ []) ∧
      (s.manager.pendingOf n ≠ [] → s.aheadOf n ≠ []) := by
  rw [ne_eq (s.unfinishedOf n), ne_eq (s.aheadOf n), unfinishedOf_eq_nil, aheadOf_eq_nil, not_and_or,
    not_and_or, not_not]
  exact ⟨fun h => ⟨h.held, h.pending⟩, fun h => ⟨h.1, h.2⟩⟩

theorem single_iff : s.manager.Single s.owing n ↔
    (s.aheadOf n).length ≤ 1 ∧ (s.manager.handleOf n = none → s.unfinishedOf n = []) := by
  rw [length_aheadOf, unfinishedOf_eq_nil]
  exact ⟨fun h => ⟨h.one, h.unheld⟩, fun h => ⟨h.1, h.2⟩⟩

theorem Shuffles.ahead {s' : PolledSystem F} (h : Shuffles n s s') :
    (s'.aheadOf n).Perm (s.aheadOf n) := by
  rw [aheadOf, h.waitingOf, aheadOf]
  exact h.unfinished.append_right _

theorem Shuffles.pendingOf {s' : PolledSystem F} (h : Shuffles n s s') :
    s'.manager.pendingOf n = s.manager.pendingOf n := by
  rw [AsyncManager.pendingOf, h.state, AsyncManager.pendingOf]

theorem Shuffles.unfinished_eq_nil {s' : PolledSystem F} (h : Shuffles n s s') :
    s'.unfinishedOf n = [] ↔ s.unfinishedOf n = [] := by
  rw [← List.length_eq_zero_iff, h.unfinished.length_eq, List.length_eq_zero_iff]

theorem Shuffles.ahead_eq_nil {s' : PolledSystem F} (h : Shuffles n s s') :
    s'.aheadOf n = [] ↔ s.aheadOf n = [] := by
  rw [← List.length_eq_zero_iff, h.ahead.length_eq, List.length_eq_zero_iff]

theorem Shuffles.backed {s' : PolledSystem F} (h : Shuffles n s s')
    (hb : s.manager.Backed s.owing n) : s'.manager.Backed s'.owing n := by
  rw [backed_iff] at hb ⊢
  rw [handleOf_congr h.state, h.pendingOf, ne_eq (s'.unfinishedOf n), ne_eq (s'.aheadOf n),
    h.unfinished_eq_nil, h.ahead_eq_nil]
  exact hb

theorem Shuffles.single {s' : PolledSystem F} (h : Shuffles n s s')
    (hs : s.manager.Single s.owing n) : s'.manager.Single s'.owing n := by
  rw [single_iff] at hs ⊢
  rw [handleOf_congr h.state, h.ahead.length_eq, h.unfinished_eq_nil]
  exact hs

/-- Each step keeps the work of a node under `queue` backed. -/
theorem backed_apply (h : s.Kept) {a : PolledAction F} (hq : (s.apply a).manager.Queues n)
    (hq' : s.manager.Queues n) (hb : s.manager.Backed s.owing n) :
    (s.apply a).manager.Backed (s.apply a).owing n := by
  obtain rfl | hs | ⟨f, policy, groupId, rfl, hp | hl⟩ := step_cases h hq
  · have hb0 : Backed { s.manager with resultRx := [] } s.owing n := ⟨hb.held, hb.pending⟩
    rw [owing_drain]
    exact hb0.foldl h.taken hq'
  · exact hs.backed hb
  · rw [owing_spawn]
    refine ⟨fun _ => ?_, fun _ => ?_⟩
    · rw [hp.tasksOf]
      exact hb.held hp.handle
    · rw [hp.lineOf]
      refine (hb.held hp.handle).imp_left fun ht hnil => ht ?_
      exact List.map_eq_nil_iff.mp (List.append_eq_nil_iff.mp hnil).1
  · rw [owing_spawn]
    refine ⟨hb.held.mono hl.starts, fun _ => Or.inl ?_⟩
    rw [hl.lineOf]
    simp

/-! ### Nothing is lost or doubled -/

/-- The futures of a node in the order in which it will be done with them, as far as the manager
decides it. The order among those that run is the scheduler's. -/
def accountOf (s : PolledSystem F) (n : NodeId) : List F :=
  s.drainedOf n ++ s.aheadOf n ++ s.manager.pendingOf n

/-- Draining the channel and what follows it leave every account as it was, order included: the
results go from one part to the one before it. -/
theorem accountOf_drain (h : s.Kept) (n : NodeId) :
    (s.apply (.call .drain)).accountOf n = s.accountOf n := by
  have hheld : s.manager.drainResults.1.heldOf n = s.manager.heldOf n :=
    congrFun (heldOf_foldl h.taken) n
  have hrx : s.manager.drainResults.1.resultRx = [] := (SameProfile.drainResults s.manager).resultRx
  have hdrained : (s.apply (.call .drain)).drainedOf n = s.drainedOf n ++ s.manager.resultsOf n := by
    simp [AsyncSystem.drainedOf, PolledSystem.apply, AsyncSystem.apply, resultsOf, drainResults]
  have hresults : s.manager.drainResults.1.resultsOf n = [] := by
    rw [resultsOf, hrx, List.filter_nil, List.map_nil]
  rw [heldOf, heldOf] at hheld
  rw [accountOf, hdrained, aheadOf_eq, accountOf, aheadOf_eq]
  simp only [PolledSystem.apply, AsyncSystem.apply, hresults, finishingOf, List.nil_append,
    List.append_assoc, hheld]

theorem aheadOf_spawn (s : PolledSystem F) (n : NodeId) {n' : NodeId} {f : F}
    {policy : AsyncPolicy} {groupId : Option ℕ} :
    (s.apply (.call (.spawn n' f policy groupId))).aheadOf n =
      s.manager.resultsOf n ++ s.finishingOf n ++
        (s.manager.spawn n' f policy groupId).lineOf n := by
  rw [aheadOf_eq]
  simp only [PolledSystem.apply, AsyncSystem.apply, resultsOf, resultRx_spawn, finishingOf]

theorem spawnedOf_spawn (s : PolledSystem F) (n : NodeId) {f : F} {policy : AsyncPolicy}
    {groupId : Option ℕ} :
    (s.apply (.call (.spawn n f policy groupId))).spawnedOf n = s.spawnedOf n ++ [f] := by
  simp [AsyncSystem.spawnedOf, PolledSystem.apply, AsyncSystem.apply]

section Account

variable {f : F} {policy : AsyncPolicy} {groupId : Option ℕ}

theorem accountOf_pends
    (hp : Pends n f s.manager (s.apply (.call (.spawn n f policy groupId))).manager) :
    (s.apply (.call (.spawn n f policy groupId))).accountOf n = s.accountOf n ++ [f] := by
  have hline := hp.lineOf
  rw [accountOf, hp.pendingOf, aheadOf_spawn, accountOf, aheadOf_eq]
  simp only [PolledSystem.apply, AsyncSystem.apply] at hline ⊢
  rw [hline]
  simp only [List.append_assoc]
  rfl

theorem accountOf_lines
    (hl : Lines n f s.manager (s.apply (.call (.spawn n f policy groupId))).manager) :
    (s.apply (.call (.spawn n f policy groupId))).accountOf n =
      s.drainedOf n ++ s.aheadOf n ++ [f] ++ s.manager.pendingOf n := by
  have hline := hl.lineOf
  rw [accountOf, hl.pendingOf, aheadOf_spawn, aheadOf_eq]
  simp only [PolledSystem.apply, AsyncSystem.apply] at hline ⊢
  rw [hline]
  simp only [List.append_assoc]
  rfl

end Account

/-- The account of a node under `queue`: no future is lost, doubled or stranded. -/
structure Accounted (s : PolledSystem F) (n : NodeId) : Prop where
  backed : s.manager.Backed s.owing n
  account : (s.accountOf n).Perm (s.spawnedOf n)

theorem Shuffles.account {s' : PolledSystem F} (h : Shuffles n s s') :
    (s'.accountOf n).Perm (s.accountOf n) := by
  rw [accountOf, h.drainedOf, h.pendingOf, accountOf]
  exact (h.ahead.append_left _).append_right _

theorem Accounted.apply (h : s.Kept) {a : PolledAction F} (hq : (s.apply a).manager.Queues n)
    (hq' : s.manager.Queues n) (ha : s.Accounted n) : (s.apply a).Accounted n := by
  refine ⟨backed_apply h hq hq' ha.backed, ?_⟩
  obtain rfl | hs | ⟨f, policy, groupId, rfl, hp | hl⟩ := step_cases h hq
  · rw [accountOf_drain h]
    exact ha.account
  · rw [hs.spawnedOf]
    exact hs.account.trans ha.account
  · rw [accountOf_pends hp, spawnedOf_spawn]
    exact ha.account.append_right _
  · have hmove : ([f] ++ s.manager.pendingOf n).Perm (s.manager.pendingOf n ++ [f]) :=
      List.perm_append_comm
    rw [accountOf_lines hl, spawnedOf_spawn, List.append_assoc]
    refine (hmove.append_left _).trans ?_
    rw [← List.append_assoc, ← accountOf]
    exact ha.account.append_right _

/-! ### One at a time, in order -/

/-- The node is triggered only while nothing of it waits for a slot of its group. A condition on the
state before each trigger, and on nothing else. -/
def SpawnedUnqueued (n : NodeId) (s : PolledSystem F) : PolledAction F → Prop
  | .call (.spawn n' _ _ _) => n' = n → s.manager.waitingOf n = []
  | _ => True

/-- At most one future of the node has left the pending list and is not drained, and the futures
come in the order they were spawned in. -/
structure InOrder (s : PolledSystem F) (n : NodeId) : Prop where
  backed : s.manager.Backed s.owing n
  single : s.manager.Single s.owing n
  account : s.accountOf n = s.spawnedOf n

theorem perm_eq_of_length_le_one {l l' : List F} (h : l.Perm l') (hl : l'.length ≤ 1) : l = l' := by
  match l', hl with
  | [], _ => exact h.eq_nil
  | [x], _ => exact List.perm_singleton.mp h

/-- A trigger that finds neither a handle nor work in the group's queue finds nothing at all. -/
theorem InOrder.idle (h : s.InOrder n) (hh : s.manager.handleOf n = none)
    (hw : s.manager.waitingOf n = []) : s.aheadOf n = [] ∧ s.manager.pendingOf n = [] := by
  have hahead : s.aheadOf n = [] := by rw [aheadOf, (single_iff.mp h.single).2 hh, hw]; rfl
  exact ⟨hahead, by_contra fun hp => (backed_iff.mp h.backed).2 hp hahead⟩

theorem InOrder.apply (h : s.Kept) {a : PolledAction F} (hq : (s.apply a).manager.Queues n)
    (hq' : s.manager.Queues n) (hi : s.InOrder n) (hc : SpawnedUnqueued n s a) :
    (s.apply a).InOrder n := by
  refine ⟨backed_apply h hq hq' hi.backed, ?_, ?_⟩
  -- each step drains, moves work up, parks a future or lines one up
  all_goals obtain rfl | hs | ⟨f, policy, groupId, rfl, hp | hl⟩ := step_cases h hq
  · have h0 : Single { s.manager with resultRx := [] } s.owing n :=
      ⟨hi.single.one, hi.single.unheld⟩
    rw [owing_drain]
    exact h0.foldl h.taken
  · exact hs.single hi.single
  · obtain ⟨hone, -⟩ := single_iff.mp hi.single
    rw [single_iff, hp.handleOf, aheadOf_spawn]
    refine ⟨?_, fun hh => absurd hh hp.handle⟩
    have hline := hp.lineOf
    simp only [PolledSystem.apply, AsyncSystem.apply] at hline
    rwa [hline, ← aheadOf_eq]
  · obtain ⟨hahead, -⟩ := hi.idle hl.handle (hc rfl)
    have hline := hl.lineOf
    simp only [PolledSystem.apply, AsyncSystem.apply] at hline
    refine ⟨?_, ?_⟩
    · rw [← length_aheadOf, aheadOf_spawn, hline, ← List.append_assoc, ← aheadOf_eq, hahead]
      exact le_rfl
    · rw [owing_spawn]
      exact hi.single.unheld.mono hl.starts
  · rw [accountOf_drain h]
    exact hi.account
  · rw [accountOf, hs.drainedOf, hs.pendingOf, hs.spawnedOf,
      perm_eq_of_length_le_one hs.ahead (single_iff.mp hi.single).1]
    exact hi.account
  · rw [accountOf_pends hp, spawnedOf_spawn, hi.account]
  · obtain ⟨-, hpend⟩ := hi.idle hl.handle (hc rfl)
    have haccount := hi.account
    rw [accountOf, hpend, List.append_nil] at haccount
    rw [accountOf_lines hl, spawnedOf_spawn, hpend, List.append_nil, haccount]

/-! ### The three guarantees -/

theorem queues_of_apply {a : PolledAction F} (h : (s.apply a).manager.Queues n) :
    s.manager.Queues n := fun _ hp => h _ (policyOf_apply hp a)

theorem ungrouped_of_apply {a : PolledAction F} (h : (s.apply a).manager.groupIdOf n = none) :
    s.manager.groupIdOf n = none := by
  cases hg : s.manager.groupIdOf n with
  | none => rfl
  | some gid =>
    rw [groupIdOf_apply hg a] at h
    exact absurd h (by simp)

theorem queues_of_policy (h : s.manager.policyOf n = some .queue) : s.manager.Queues n := by
  intro p hp
  rw [h] at hp
  exact (Option.some.inj hp).symm

theorem InOrder.init : (PolledSystem.init : PolledSystem F).InOrder n := by
  refine ⟨backed_iff.mpr ⟨?_, ?_⟩, single_iff.mpr ⟨?_, ?_⟩, ?_⟩ <;>
    simp [PolledSystem.init, AsyncSystem.init, AsyncManager.new, Runtime.new, handleOf, pendingOf,
      aheadOf, unfinishedOf, runningOf, running, resultsOf, waitingOf, groupOf, accountOf,
      AsyncSystem.drainedOf, AsyncSystem.spawnedOf]

/-- Every future of the node is in one place, and what is pending has another future of the node
ahead of it. -/
def Conserved (s : PolledSystem F) (n : NodeId) : Prop :=
  (s.drainedOf n ++ s.manager.resultsOf n ++ s.runningOf n ++ s.manager.waitingOf n ++
      s.manager.pendingOf n).Perm (s.spawnedOf n) ∧
    (s.manager.pendingOf n ≠ [] → s.manager.waitingOf n ≠ [] ∨ s.unfinishedOf n ≠ [])

theorem Accounted.conserved (h : s.Accounted n) : s.Conserved n := by
  refine ⟨?_, fun hp => ?_⟩
  · have := h.account
    simp only [accountOf, aheadOf, unfinishedOf, ← List.append_assoc] at this
    exact this
  · have := (backed_iff.mp h.backed).2 hp
    rw [aheadOf, ne_eq, List.append_eq_nil_iff, not_and_or] at this
    exact this.symm

/-- **Nothing is lost, doubled or stranded under `queue`.** In every run, whatever the groups, the
other nodes and the schedule: each future passed to `spawn` for a node under `queue` is drained, in
the result channel, running, in the queue of the node's group or pending, as often as it was passed
and no more; and while something is pending another future of the node runs, waits or is undrained.

The guard names the policy the manager has recorded, which is that of the node's first trigger. Of
the order nothing is said here, since in a group it can be lost. -/
theorem queue_conserves (as : List (PolledAction F)) :
    Always PolledSystem.apply
      (fun s => ∀ n, s.manager.policyOf n = some .queue → s.Conserved n) .init as := by
  refine always_of_step
    (I := fun s => s.Kept ∧ ∀ n, s.manager.Queues n → s.Accounted n)
    (fun s a hi => ⟨hi.1.apply a, fun n hq => ?_⟩)
    (fun s hi n hq => (hi.2 n (queues_of_policy hq)).conserved) ⟨Kept.init, fun n _ => ?_⟩
  · exact (hi.2 n (queues_of_apply hq)).apply hi.1 hq (queues_of_apply hq)
  · exact ⟨InOrder.init.backed, .of_eq InOrder.init.account⟩

/-- The futures of the node come out in the order they went in: the drained ones, at most one that
runs or is undrained, and the pending ones behind it, which there are none of when there is no such
one. -/
structure Fifo (s : PolledSystem F) (n : NodeId) : Prop where
  account : s.drainedOf n ++ s.unfinishedOf n ++ s.manager.pendingOf n = s.spawnedOf n
  one : (s.unfinishedOf n).length ≤ 1
  idle : s.unfinishedOf n = [] → s.manager.pendingOf n = []

theorem waitingOf_of_ungrouped (h : s.manager.groupIdOf n = none) : s.manager.waitingOf n = [] := by
  rw [waitingOf, groupOf_eq, h]
  rfl

theorem InOrder.fifo (h : s.InOrder n) (hw : s.manager.waitingOf n = []) : s.Fifo n := by
  have hahead : s.aheadOf n = s.unfinishedOf n := by rw [aheadOf, hw, List.append_nil]
  have hone := (single_iff.mp h.single).1
  have hpend := (backed_iff.mp h.backed).2
  have haccount := h.account
  rw [accountOf, hahead] at haccount
  rw [hahead] at hone hpend
  exact ⟨haccount, hone, fun hnil => by_contra fun hp => hpend hp hnil⟩

/-- Every node under `queue` that is in no group is in order. -/
structure Served (s : PolledSystem F) : Prop where
  kept : s.Kept
  inOrder : ∀ n, s.manager.Queues n → s.manager.groupIdOf n = none → s.InOrder n

theorem Served.init : (PolledSystem.init : PolledSystem F).Served :=
  ⟨Kept.init, fun _ _ _ => InOrder.init⟩

/-- Outside the groups no trigger finds anything of its node waiting for a slot. -/
theorem Served.apply (h : s.Served) (a : PolledAction F) : (s.apply a).Served := by
  refine ⟨h.kept.apply a, fun n hq hg => ?_⟩
  have hg' := ungrouped_of_apply hg
  refine (h.inOrder n (queues_of_apply hq) hg').apply h.kept hq (queues_of_apply hq) ?_
  cases a with
  | call a => cases a <;> first | trivial | exact fun _ => waitingOf_of_ungrouped hg'
  | lastPoll id => trivial
  | send i => trivial

theorem Served.fifo (h : s.Served) (hq : s.manager.policyOf n = some .queue)
    (hg : s.manager.groupIdOf n = none) : s.Fifo n :=
  (h.inOrder n (queues_of_policy hq) hg).fifo (waitingOf_of_ungrouped hg)

/-- **Outside the groups `queue` is a first-in first-out queue, exactly once.** The spawned futures
are, in their order, those drained, the one that runs or whose result waits, and those parked behind
it.

Without a group a trigger finds a handle exactly when something of the node is under way, which is
what makes the policy sequential; the node's group is again that of its first trigger. -/
theorem queue_fifo (as : List (PolledAction F)) :
    Always PolledSystem.apply
      (fun s => ∀ n, s.manager.policyOf n = some .queue → s.manager.groupIdOf n = none → s.Fifo n)
      .init as :=
  always_of_step (I := Served) (fun _ a h => h.apply a) (fun _ h _ hq hg => h.fifo hq hg) .init

/-! The guard on the recorded policy leaves out no node that is triggered under `queue`: what is
recorded is the policy, and the group, of the first trigger (`policyOf_run`). -/

/-- One future of the node is drained, the next one runs in its last poll, and the third is parked
behind it. The group is that of the first trigger; another node waits in its queue. -/
def served (groupId : Option ℕ) : List (PolledAction ℕ) :=
  [.call (.createGroup 1), .call (.spawn nodeA 1 .queue groupId), .call (.complete 0),
    .call .drain, .call (.spawn nodeA 2 .queue groupId), .call (.spawn nodeA 3 .queue groupId),
    .call (.spawn nodeB 0 .latestWins (some 0)), .lastPoll 1]

theorem queue_fifo_served :
    let s := Runs.run PolledSystem.apply .init (served none)
    s.drainedOf nodeA = [1] ∧ s.unfinishedOf nodeA = [2] ∧ s.manager.pendingOf nodeA = [3] ∧
      s.Fifo nodeA :=
  ⟨by decide, by decide, by decide, (queue_fifo (served none)).last nodeA (by decide) (by decide)⟩

theorem queue_conserves_served :
    let s := Runs.run PolledSystem.apply .init (served (some 0))
    s.drainedOf nodeA = [1] ∧ s.runningOf nodeA = [2] ∧ s.manager.pendingOf nodeA = [3] ∧
      s.manager.waitingOf nodeB = [0] ∧ s.Conserved nodeA :=
  ⟨by decide, by decide, by decide, by decide,
    (queue_conserves (served (some 0))).last nodeA (by decide)⟩

/-- At most one task of the node runs or has completed with the result undrained, and the results
come in the order of the triggers. -/
def Sequential (s : PolledSystem F) (n : NodeId) : Prop :=
  (s.unfinishedOf n).length ≤ 1 ∧ s.drainedOf n <+: s.spawnedOf n

theorem InOrder.sequential (h : s.InOrder n) : s.Sequential n := by
  have hone := (single_iff.mp h.single).1
  rw [aheadOf, List.length_append] at hone
  refine ⟨by omega, ?_⟩
  rw [← h.account, accountOf, List.append_assoc]
  exact List.prefix_append _ _

instance (s : PolledSystem ℕ) (n : NodeId) : Decidable (s.Sequential n) :=
  inferInstanceAs (Decidable ((s.unfinishedOf n).length ≤ 1 ∧ s.drainedOf n <+: s.spawnedOf n))

instance (n : NodeId) (s : PolledSystem ℕ) : ∀ a, Decidable (SpawnedUnqueued n s a)
  | .call (.spawn n' _ _ _) =>
    inferInstanceAs (Decidable (n' = n → s.manager.waitingOf n = []))
  | .call (.createGroup _) | .call (.complete _) | .call .drain | .lastPoll _ | .send _ =>
    .isTrue trivial

/-- **In a group `queue` is sequential while its triggers do not wait in the group's queue.** In a
run that triggers the node only when nothing of it waits for a slot, at most one task of it runs or
is undrained at any time, and its results come in the order of the triggers.

The condition is on the triggers of this node alone: what other nodes do, and how full the group is,
may be anything. A trigger that is itself queued for a slot is allowed; it is the next one that must
wait until it has started. -/
theorem queue_sequential (n : NodeId) (as : List (PolledAction F))
    (h : AllSteps PolledSystem.apply (SpawnedUnqueued n) .init as) :
    Always PolledSystem.apply
      (fun s => s.manager.policyOf n = some .queue → s.Sequential n) .init as := by
  refine always_of_invariant
    (I := fun s => s.Kept ∧ (s.manager.Queues n → s.InOrder n))
    (fun s a hi hc => ⟨hi.1.apply a, fun hq => ?_⟩)
    (fun s hi hq => (hi.2 (queues_of_policy hq)).sequential)
    ⟨Kept.init, fun _ => InOrder.init⟩ h
  exact (hi.2 (queues_of_apply hq)).apply hi.1 hq (queues_of_apply hq) hc

/-- The node is triggered while it runs, and again when another node has taken the free slot. -/
theorem queue_sequential_pending : Always PolledSystem.apply
    (fun s => s.manager.policyOf nodeA = some .queue → s.Sequential nodeA) .init
    [.call (.createGroup 1), .call (.spawn nodeA 1 .queue (some 0)),
      .call (.spawn nodeA 2 .queue (some 0)), .call (.spawn nodeB 0 .queue (some 0)),
      .call (.complete 0), .call .drain, .call (.complete 1), .call .drain,
      .call (.spawn nodeA 3 .queue (some 0))] :=
  queue_sequential nodeA _ (by decide)

/-- **In a group `queue` is not sequential.** A node under `queue` has no handle while its future
waits for a slot, so its next future is put in the group's queue as well. In a group of two both
start when two slots come free. In a group of one the futures pending behind an earlier one are
overtaken by the next trigger: 4 comes out before 3. -/
theorem queue_overtakes :
    (∃ as : List (PolledAction ℕ), ¬ Always PolledSystem.apply
      (fun s => s.manager.policyOf nodeA = some .queue → (s.unfinishedOf nodeA).length ≤ 1)
      .init as) ∧
    ∃ as : List (PolledAction ℕ), ¬ Always PolledSystem.apply
      (fun s => s.manager.policyOf nodeA = some .queue → s.drainedOf nodeA <+: s.spawnedOf nodeA)
      .init as := by
  refine ⟨⟨[.call (.createGroup 2), .call (.spawn nodeB 0 .queue (some 0)),
    .call (.spawn ⟨0, 2⟩ 0 .queue (some 0)), .call (.spawn nodeA 1 .queue (some 0)),
    .call (.spawn nodeA 2 .queue (some 0)), .call (.complete 0), .call (.complete 1),
    .call .drain], fun h => ?_⟩, [.call (.createGroup 1), .call (.spawn nodeA 1 .queue (some 0)),
    .call (.spawn nodeA 2 .queue (some 0)), .call (.spawn nodeA 3 .queue (some 0)),
    .call (.spawn nodeB 0 .queue (some 0)), .call (.complete 0), .call .drain,
    .call (.spawn nodeA 4 .queue (some 0)), .call (.complete 1), .call .drain,
    .call (.complete 2), .call .drain, .call (.complete 3), .call .drain], fun h => ?_⟩
  · exact absurd (h.last rfl) (by decide)
  · exact absurd (h.last rfl) (by decide)

end PolledSystem

end ReactiveGraph
