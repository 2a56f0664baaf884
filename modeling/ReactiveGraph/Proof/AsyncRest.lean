import Mathlib.Data.Nat.Pairing
import ReactiveGraph.Lib.Rest
import ReactiveGraph.Proof.AsyncWork

/-!
# The ledger of the async manager, and its end

Every future that was ever spawned is drained, in the result channel, in the last poll of its task,
in the manager's stock, or cancelled (`Ledger.account`): no policy, no group and no schedule loses
one or makes two of it. What is cancelled is never the newest future of its node, and nothing of a
node under `queue`.

With no further triggers, and the tasks and the drains going on in any fair order, the manager comes
to rest: nothing runs and everything is drained that was not cancelled, save what waits for a group
that may run nothing (`Settles`). The rank counts, for each future, the moves that are left to it.

**What is cancelled is defined by the triggers**, as the running task that the handle names at that
moment; the ledger then shows that this is all that ever goes missing. A task in its last poll is
not cancelled when its handle is aborted, since its result comes all the same; if it was to be
replaced, both results come out. The account is right for both kinds of schedule, and does not say
which of two results of a node is the later.

**Three parts.** The account and its step lemma; the clauses about what is cancelled; and, after
them, the end of runs. For the last, a state that fair moves do not change any more has nothing
running and nothing in the channel (`Still`), and what then still waits is shown to wait for a slot
of a group that has none: a queue of any other group would have moved up when its last task
completed (`Sound.stuck`).

That a group may be made with no slots at all is the caller's business; such a group keeps what it
is given for ever.
-/

namespace ReactiveGraph

open Runs AsyncManager

variable {F : Type*}

/-- The futures of one node. -/
def futuresOf (n : NodeId) (works : List (NodeId × F)) : List F :=
  (works.filter (·.1 = n)).map Prod.snd

theorem futuresOf_append (n : NodeId) (l l' : List (NodeId × F)) :
    futuresOf n (l ++ l') = futuresOf n l ++ futuresOf n l' := by
  rw [futuresOf, List.filter_append, List.map_append]
  rfl

theorem futuresOf_eq_nil {n : NodeId} {l : List (NodeId × F)} (h : ∀ w ∈ l, w.1 ≠ n) :
    futuresOf n l = [] := by
  rw [futuresOf, List.map_eq_nil_iff, List.filter_eq_nil_iff]
  exact fun w hw => by simpa using h w hw

namespace PolledSystem

variable {s : PolledSystem F}

/-- Where a future is that was not cancelled. The five places are disjoint by what a step does, not
by what is in them: two equal futures are two. -/
def whereabouts (s : PolledSystem F) : Multiset (NodeId × F) :=
  ↑s.drained + ↑s.manager.resultRx + ↑(s.finishing.map taskWork) + s.manager.stock

/-- The futures that a step cancels: only triggers do. -/
def cancels (s : PolledSystem F) : PolledAction F → List (NodeId × F)
  | .call (.spawn n _ policy groupId) => s.manager.cancelled n policy groupId
  | .call (.createGroup _) | .call (.complete _) | .call .drain | .lastPoll _ | .send _ => []

/-! ## Nothing is lost or doubled -/

/-- A step that spawns nothing moves futures from one place to another. -/
theorem whereabouts_complete (s : PolledSystem F) (id : TaskId) :
    (s.apply (.call (.complete id))).whereabouts = s.whereabouts := by
  obtain heq | ⟨task, hmem, -, heq⟩ := s.manager.complete_cases id
  · simp only [whereabouts, apply, AsyncSystem.apply, heq]
  · have hstock := stock_removed hmem (s.manager.runtime.finish task) rfl
      (s.manager.resultRx ++ [(task.nodeId, task.future)])
    simp only [whereabouts, apply, AsyncSystem.apply, heq, ← hstock, taskWork,
      ← Multiset.coe_add, Multiset.coe_singleton]
    abel

theorem whereabouts_lastPoll (s : PolledSystem F) (id : TaskId) :
    (s.apply (.lastPoll id)).whereabouts = s.whereabouts := by
  obtain heq | ⟨task, hmem, heq⟩ := s.lastPoll_cases id
  · rw [heq]
  · have hstock := stock_removed hmem (s.manager.runtime.remove task.id) rfl s.manager.resultRx
    simp only [whereabouts, heq, ← hstock, List.map_append, List.map_cons, List.map_nil,
      ← Multiset.coe_add, Multiset.coe_singleton]
    abel

theorem whereabouts_send (s : PolledSystem F) (i : ℕ) :
    (s.apply (.send i)).whereabouts = s.whereabouts := by
  obtain heq | ⟨task, hperm, heq⟩ := s.send_cases i
  · rw [heq]
  · have hfin : (↑(s.finishing.map taskWork) : Multiset (NodeId × F)) =
        {taskWork task} + ↑((s.finishing.eraseIdx i).map taskWork) := by
      rw [Multiset.singleton_add, Multiset.cons_coe, ← List.map_cons]
      exact Multiset.coe_eq_coe.mpr (hperm.map taskWork)
    have hstock : (s.manager.deliver task).stock = s.manager.stock := rfl
    have hrx : (s.manager.deliver task).resultRx = s.manager.resultRx ++ [taskWork task] := rfl
    simp only [whereabouts, heq, hstock, hrx, hfin, ← Multiset.coe_add, Multiset.coe_singleton]
    abel

theorem whereabouts_drain (s : PolledSystem F) :
    (s.apply (.call .drain)).whereabouts = s.whereabouts := by
  have hrx : s.manager.drainResults.1.resultRx = [] := (SameProfile.drainResults s.manager).resultRx
  have hout : s.manager.drainResults.2 = s.manager.resultRx := rfl
  simp only [whereabouts, apply, AsyncSystem.apply, hrx, hout, stock_drainResults,
    ← Multiset.coe_add, Multiset.coe_nil, add_zero]

theorem whereabouts_spawn (s : PolledSystem F) (n : NodeId) (f : F) (policy : AsyncPolicy)
    (groupId : Option ℕ) :
    (s.apply (.call (.spawn n f policy groupId))).whereabouts +
      ↑(s.cancels (.call (.spawn n f policy groupId))) = s.whereabouts + {(n, f)} := by
  have hstock := stock_spawn s.manager n f policy groupId
  simp only [whereabouts, apply, AsyncSystem.apply, cancels, resultRx_spawn]
  rw [add_assoc, hstock, ← add_assoc]

/-- **The account of one step**: what it spawns comes in, what it cancels goes out. One case for
each action, each a lemma about the manager's stock. -/
theorem whereabouts_apply (h : s.WF) {lost : List (NodeId × F)}
    (hacc : (↑s.spawned : Multiset (NodeId × F)) = s.whereabouts + ↑lost) (a : PolledAction F) :
    (↑(s.apply a).spawned : Multiset (NodeId × F)) =
      (s.apply a).whereabouts + ↑(lost ++ s.cancels a) := by
  cases a with
  | call a =>
    cases a with
    | createGroup max =>
      have hstock := stock_createGroup h.manager max
      rw [cancels, List.append_nil]
      simp only [whereabouts, apply, AsyncSystem.apply, hstock]
      exact hacc
    | spawn n f policy groupId =>
      calc (↑(s.spawned ++ [(n, f)]) : Multiset (NodeId × F))
          = s.whereabouts + {(n, f)} + ↑lost := by
            rw [← Multiset.coe_add, hacc, Multiset.coe_singleton]
            abel
        _ = _ := by
            rw [← whereabouts_spawn, ← Multiset.coe_add]
            abel
    | complete id =>
      rw [whereabouts_complete, cancels, List.append_nil]
      exact hacc
    | drain =>
      rw [whereabouts_drain, cancels, List.append_nil]
      exact hacc
  | lastPoll id =>
    rw [whereabouts_lastPoll, cancels, List.append_nil]
    obtain heq | ⟨task, -, heq⟩ := s.lastPoll_cases id <;> rw [heq] <;> exact hacc
  | send i =>
    rw [whereabouts_send, cancels, List.append_nil]
    obtain heq | ⟨task, -, heq⟩ := s.send_cases i <;> rw [heq] <;> exact hacc

/-! ## What is cancelled -/

/-- A trigger cancels running work, of its own node. -/
theorem mem_cancelled (h : s.WF) {n : NodeId} {policy : AsyncPolicy} {groupId : Option ℕ}
    {w : NodeId × F} (hw : w ∈ s.manager.cancelled n policy groupId) :
    w.1 = n ∧ (s.manager.stateOr n policy groupId).policy.cancels := by
  unfold cancelled at hw
  split at hw
  · next hc =>
    refine ⟨?_, hc⟩
    obtain ⟨task, ht, rfl⟩ := List.mem_map.mp hw
    obtain ⟨hmem, hhandle⟩ := List.mem_filter.mp ht
    obtain ⟨state, hs, hin⟩ := Option.bind_eq_some_iff.mp (of_decide_eq_true hhandle)
    exact h.manager.handle_own n state task.id hs hin task hmem rfl
  · exact absurd hw List.not_mem_nil

theorem cancelled_le_whereabouts (s : PolledSystem F) (n : NodeId) (policy : AsyncPolicy)
    (groupId : Option ℕ) :
    (↑(s.manager.cancelled n policy groupId) : Multiset (NodeId × F)) ≤ s.whereabouts := by
  have hle : (↑(s.manager.cancelled n policy groupId) : Multiset (NodeId × F)) ≤
      s.manager.stock := by
    unfold cancelled
    split
    · refine le_trans ?_ (le_trans (Multiset.le_add_right _ _) (Multiset.le_add_right _ _))
      exact Multiset.coe_le.mpr (List.filter_sublist.map _).subperm
    · exact Multiset.zero_le _
  exact hle.trans (Multiset.le_add_left _ _)

/-- **The books of a run.** `lost` is what the run has cancelled. The clause on the newest future
says that of all that was spawned for a node, what is cancelled is contained in all but the last. -/
structure Ledger (s : PolledSystem F) (lost : List (NodeId × F)) : Prop where
  account : (↑s.spawned : Multiset (NodeId × F)) = s.whereabouts + ↑lost
  /-- The newest future of a node is not among the cancelled ones. -/
  newest : ∀ n, (futuresOf n lost).Subperm (s.spawnedOf n).dropLast
  queue : ∀ n, s.manager.Queues n → futuresOf n lost = []

theorem Ledger.init : (init : PolledSystem F).Ledger [] := by
  refine ⟨?_, fun n => List.nil_subperm, fun n _ => rfl⟩
  simp [whereabouts, PolledSystem.init, AsyncSystem.init, AsyncManager.new, stock, Runtime.new]

/-- Of a node that a step does not trigger nothing is spawned or cancelled. -/
theorem untriggered (h : s.WF) (a : PolledAction F) (n : NodeId)
    (hn : ∀ f policy groupId, a ≠ .call (.spawn n f policy groupId)) :
    (s.apply a).spawnedOf n = s.spawnedOf n ∧ futuresOf n (s.cancels a) = [] := by
  cases a with
  | call a =>
    cases a with
    | spawn n' f policy groupId =>
      have hne : n' ≠ n := fun heq => hn f policy groupId (by rw [heq])
      refine ⟨by simp [AsyncSystem.spawnedOf, apply, AsyncSystem.apply, hne],
        futuresOf_eq_nil fun w hw => ?_⟩
      rw [(mem_cancelled h hw).1]
      exact hne
    | createGroup max => exact ⟨rfl, rfl⟩
    | complete id => exact ⟨rfl, rfl⟩
    | drain => exact ⟨rfl, rfl⟩
  | lastPoll id => exact ⟨(Shuffles.lastPoll s id n).spawnedOf, rfl⟩
  | send i => exact ⟨(Shuffles.send s i n).spawnedOf, rfl⟩

/-- When a node is triggered, everything of it that is cancelled was spawned before. -/
theorem Ledger.triggered {lost : List (NodeId × F)} (h : s.Ledger lost) (n : NodeId) (f : F)
    (policy : AsyncPolicy) (groupId : Option ℕ) :
    (futuresOf n (lost ++ s.cancels (.call (.spawn n f policy groupId)))).Subperm
      (s.spawnedOf n) := by
  have hle : (↑(lost ++ s.cancels (.call (.spawn n f policy groupId))) :
      Multiset (NodeId × F)) ≤ ↑s.spawned := by
    rw [h.account, ← Multiset.coe_add, add_comm]
    exact Multiset.add_le_add_right (cancelled_le_whereabouts s n policy groupId)
  exact Multiset.coe_le.mp (Multiset.map_le_map (Multiset.filter_le_filter _ hle))

theorem Ledger.apply {lost : List (NodeId × F)} (h : s.Ledger lost) (hw : s.WF)
    (a : PolledAction F) : (s.apply a).Ledger (lost ++ s.cancels a) := by
  refine ⟨whereabouts_apply hw h.account a, fun n => ?_, fun n hq => ?_⟩
  · by_cases ha : ∃ f policy groupId, a = .call (.spawn n f policy groupId)
    · obtain ⟨f, policy, groupId, rfl⟩ := ha
      rw [spawnedOf_spawn, List.dropLast_concat]
      exact h.triggered n f policy groupId
    · obtain ⟨hspawned, hcancels⟩ := untriggered hw a n fun f policy groupId heq =>
        ha ⟨f, policy, groupId, heq⟩
      rw [hspawned, futuresOf_append, hcancels, List.append_nil]
      exact h.newest n
  · rw [futuresOf_append, h.queue n (queues_of_apply hq), List.nil_append]
    refine futuresOf_eq_nil fun w hmem heq => ?_
    -- the node is triggered, and its policy would be one that cancels
    obtain ⟨f, policy, groupId, rfl⟩ : ∃ f policy groupId, a = .call (.spawn n f policy groupId) := by
      by_contra ha
      have hnil := (untriggered hw a n fun f policy groupId heq => ha ⟨f, policy, groupId, heq⟩).2
      rw [futuresOf, List.map_eq_nil_iff, List.filter_eq_nil_iff] at hnil
      exact hnil w hmem (by simpa using heq)
    have hpolicy : (s.apply (.call (.spawn n f policy groupId))).manager.policyOf n =
        some (s.manager.stateOr n policy groupId).policy := by
      simp only [PolledSystem.apply, AsyncSystem.apply, policyOf_spawn]
      exact policyOf_of_get get_record
    have hc := (mem_cancelled hw hmem).2
    rw [hq _ hpolicy] at hc
    exact absurd hc (by decide)

theorem ledger_run (as : List (PolledAction F)) :
    (run PolledSystem.apply init as).Ledger (trace PolledSystem.apply cancels init as) :=
  (trace_invariant (I := fun (s : PolledSystem F) lost => s.WF ∧ s.Ledger lost)
    (fun _ a _ h => ⟨h.1.apply a, h.2.apply h.1 a⟩) ⟨.init, .init⟩ as).2

/-- **No future is lost or doubled, and only what is superseded is cancelled.** In every run,
whatever the policies, the groups and the schedule, and whether or not an abort stops the task it is
meant for: the futures spawned are those drained, in the result channel, in the last poll of their
task, running, waiting, and cancelled, each as often as it was spawned. The newest future of a node
is not cancelled, and under `queue` none is.

Nothing is asked of the run. By induction over it, with the manager's well-formedness carried along,
which is needed where a handle is to name a task of its own node. -/
theorem futures_conserved (as : List (PolledAction F)) :
    (run PolledSystem.apply init as).Ledger (trace PolledSystem.apply cancels init as) :=
  ledger_run as

/-! ## The steps that are left

`Works` is everything but triggers. Each such step that does anything brings a future nearer to its
end. -/

/-- Tasks go on and results are drained; nothing is spawned. -/
def Works : PolledAction F → Prop
  | .call (.complete _) | .call .drain | .lastPoll _ | .send _ => True
  | .call (.createGroup _) | .call (.spawn ..) => False

/-- The steps that are left to the futures: to the last poll, to the send, to the drain. A future in
stock has three, and a completion takes two of them at once. -/
def movesLeft (s : PolledSystem F) : ℕ :=
  3 * s.manager.stock.card + 2 * s.finishing.length + s.manager.resultRx.length

/-- The task is done, or in its last poll. -/
theorem card_stock_removed {task : Task F} (ht : task ∈ s.manager.runtime.running)
    (rt : Runtime F) (hrt : rt.running = s.manager.runtime.running.filter (·.id ≠ task.id))
    (rx : List (NodeId × F)) :
    ({ s.manager with runtime := rt, resultRx := rx } : AsyncManager F).stock.card + 1 =
      s.manager.stock.card := by
  rw [← stock_removed ht rt hrt rx, Multiset.card_add, Multiset.card_singleton]

theorem movesLeft_complete (s : PolledSystem F) (id : TaskId) :
    s.apply (.call (.complete id)) = s ∧ s.manager.runtime.find id = none ∨
      (s.apply (.call (.complete id))).movesLeft < s.movesLeft := by
  cases hfind : s.manager.runtime.find id with
  | none => exact Or.inl ⟨by simp only [apply, AsyncSystem.apply, complete, hfind], rfl⟩
  | some task =>
    obtain ⟨hmem, rfl⟩ := Runtime.find_some hfind
    have hs : (s.apply (.call (.complete task.id))).manager = { s.manager with
        runtime := s.manager.runtime.finish task
        resultRx := s.manager.resultRx ++ [taskWork task] } := complete_of_mem hmem
    have hcard : (s.apply (.call (.complete task.id))).manager.stock.card + 1 =
        s.manager.stock.card := by
      rw [hs]
      exact card_stock_removed hmem _ rfl _
    have hrx : (s.apply (.call (.complete task.id))).manager.resultRx =
        s.manager.resultRx ++ [taskWork task] := by rw [hs]
    have hfin : (s.apply (.call (.complete task.id))).finishing = s.finishing := rfl
    refine Or.inr ?_
    rw [movesLeft, movesLeft, hrx, hfin, List.length_append, List.length_singleton]
    omega

theorem movesLeft_lastPoll (s : PolledSystem F) (id : TaskId) :
    s.apply (.lastPoll id) = s ∧ s.manager.runtime.find id = none ∨
      (s.apply (.lastPoll id)).movesLeft < s.movesLeft := by
  cases hfind : s.manager.runtime.find id with
  | none => exact Or.inl ⟨by simp only [apply, hfind], rfl⟩
  | some task =>
    obtain ⟨hmem, rfl⟩ := Runtime.find_some hfind
    have hs : s.apply (.lastPoll task.id) = { s with
        manager := { s.manager with runtime := s.manager.runtime.remove task.id }
        finishing := s.finishing ++ [task] } := by simp only [apply, hfind]
    have hcard : (s.apply (.lastPoll task.id)).manager.stock.card + 1 = s.manager.stock.card := by
      rw [hs]
      exact card_stock_removed hmem _ rfl _
    have hrx : (s.apply (.lastPoll task.id)).manager.resultRx = s.manager.resultRx := by rw [hs]
    have hfin : (s.apply (.lastPoll task.id)).finishing = s.finishing ++ [task] := by rw [hs]
    refine Or.inr ?_
    rw [movesLeft, movesLeft, hrx, hfin, List.length_append, List.length_singleton]
    omega

theorem movesLeft_send (s : PolledSystem F) (i : ℕ) :
    s.apply (.send i) = s ∧ s.finishing[i]? = none ∨
      (s.apply (.send i)).movesLeft < s.movesLeft := by
  cases hi : s.finishing[i]? with
  | none => exact Or.inl ⟨by simp only [apply, hi], rfl⟩
  | some task =>
    have hs : s.apply (.send i) = { s with
        manager := s.manager.deliver task
        finishing := s.finishing.eraseIdx i } := by simp only [apply, hi]
    have hstock : (s.apply (.send i)).manager.stock = s.manager.stock := by
      rw [hs]
      rfl
    have hrx : (s.apply (.send i)).manager.resultRx = s.manager.resultRx ++ [taskWork task] := by
      rw [hs]
      rfl
    have hfin : (s.apply (.send i)).finishing.length + 1 = s.finishing.length := by
      rw [hs]
      exact List.length_eraseIdx_add_one (List.getElem?_eq_some_iff.mp hi).1
    refine Or.inr ?_
    rw [movesLeft, movesLeft, hrx, hstock, List.length_append, List.length_singleton]
    omega

theorem movesLeft_drain (s : PolledSystem F) :
    s.apply (.call .drain) = s ∧ s.manager.resultRx = [] ∨
      (s.apply (.call .drain)).movesLeft < s.movesLeft := by
  by_cases hrx : s.manager.resultRx = []
  · have hm : s.manager.drainResults = (s.manager, []) := by
      unfold drainResults
      simp only [hrx, List.map_nil, List.foldl_nil, Prod.mk.injEq, and_true]
      rw [← hrx]
    exact Or.inl ⟨by simp only [apply, AsyncSystem.apply, hm, List.append_nil], hrx⟩
  · have hpos := List.length_pos_iff.mpr hrx
    have hrest : s.manager.drainResults.1.resultRx = [] :=
      (SameProfile.drainResults s.manager).resultRx
    refine Or.inr ?_
    simp only [movesLeft, apply, AsyncSystem.apply, hrest, stock_drainResults, List.length_nil]
    omega

/-- **Every step but a trigger lowers the rank, or changes nothing.** A drain that finds results
lowers it although it starts tasks: those were in stock before and are in stock after. -/
theorem lowers : Rest.Lowers (@PolledSystem.apply F) Works (fun _ => True) (· < ·)
    movesLeft where
  wf := Nat.lt_wfRel.wf
  keeps _ _ _ _ := trivial
  lowers s a _ ha := by
    match a with
    | .call (.complete id) => exact (s.movesLeft_complete id).imp_left And.left
    | .call .drain => exact s.movesLeft_drain.imp_left And.left
    | .lastPoll id => exact (s.movesLeft_lastPoll id).imp_left And.left
    | .send i => exact (s.movesLeft_send i).imp_left And.left

/-- Every running task is again and again let go on, the tasks in their last poll send, results are
drained; and no trigger comes any more. A task goes on by completing or by coming to its last poll,
whichever the schedule has. -/
structure Fair (f : ℕ → PolledAction F) : Prop where
  works : ∀ n, Works (f n)
  tasks : ∀ id, Rest.Recurs f fun a => a = .call (.complete id) ∨ a = .lastPoll id
  sends : Rest.Recurs f (· = .send 0)
  drains : Rest.Recurs f (· = .call .drain)

/-- Nothing is on its way. -/
structure Still (s : PolledSystem F) : Prop where
  running : s.running = []
  resultRx : s.manager.resultRx = []

/-- A state that a fair schedule does not change any more. -/
theorem Still.of_fixed {f : ℕ → PolledAction F} (hf : Fair f)
    (h : ∀ C, Rest.Recurs f C → ∃ a, C a ∧ s.apply a = s) : s.Still := by
  have hirrefl {s' : PolledSystem F} (heq : s' = s) : ¬ s'.movesLeft < s.movesLeft := by
    rw [heq]
    exact lt_irrefl _
  have hrun : s.manager.runtime.running = [] := by
    refine List.eq_nil_iff_forall_not_mem.mpr fun task ht => ?_
    have hnone : s.manager.runtime.find task.id = none := by
      obtain ⟨a, rfl | rfl, heq⟩ := h _ (hf.tasks task.id)
      · exact ((s.movesLeft_complete task.id).resolve_right (hirrefl heq)).2
      · exact ((s.movesLeft_lastPoll task.id).resolve_right (hirrefl heq)).2
    rw [Runtime.find_of_mem ht] at hnone
    exact absurd hnone (by simp)
  have hfin : s.finishing = [] := by
    obtain ⟨a, rfl, heq⟩ := h _ hf.sends
    have hnone := ((s.movesLeft_send 0).resolve_right (hirrefl heq)).2
    exact List.eq_nil_of_length_eq_zero (Nat.le_zero.mp (List.getElem?_eq_none_iff.mp hnone))
  obtain ⟨a, rfl, heq⟩ := h _ hf.drains
  exact ⟨by rw [PolledSystem.running, hfin, hrun]; rfl, (s.movesLeft_drain.resolve_right (hirrefl heq)).2⟩

/-! ## What waits for ever -/

/-- Only nodes under `queue` have pending futures. -/
def Parks (s : PolledSystem F) : Prop :=
  ∀ n, s.manager.pendingOf n ≠ [] → s.manager.policyOf n = some .queue

theorem pendingOf_spawn_of_cancels {m : AsyncManager F} {n : NodeId} {policy : AsyncPolicy}
    {groupId : Option ℕ} (hc : (m.stateOr n policy groupId).policy.cancels) (f : F) :
    (m.spawn n f policy groupId).pendingOf n = m.pendingOf n := by
  obtain ⟨d, h⟩ := spawn_of_cancels (f := f) hc
  rw [h, pendingOf_startWithin, ← pending_stateOr m n policy groupId]
  unfold cancelExisting
  split
  · split
    · rw [pendingOf_releaseSlot, pendingOf_setState, if_pos rfl]
    · rw [pendingOf_setState, if_pos rfl]
  · exact pendingOf_of_get get_record

theorem Parks.of_drain {m : AsyncManager F} {n : NodeId}
    (h : m.drainResults.1.pendingOf n ≠ []) : m.pendingOf n ≠ [] := by
  suffices hpend : ∀ n, m.drainResults.1.pendingOf n ≠ [] → m.pendingOf n ≠ [] from hpend n h
  refine drainResults_induction (P := fun m' => ∀ n, m'.pendingOf n ≠ [] → m.pendingOf n ≠ [])
    (fun m' n' hm' n hn => hm' n ?_) fun n hn => hn
  cases hs : m'.nodeStates.get n' with
  | none => rwa [processCompletion_of_none hs] at hn
  | some state =>
    rw [pendingOf_processCompletion hs] at hn
    split at hn
    · next heq =>
      intro hnil
      rw [heq, pendingOf_of_get hs, ← pending_settle, List.append_eq_nil_iff] at hnil
      exact hn hnil.2
    · exact hn

theorem Parks.apply (h : s.Parks) (a : PolledAction F) : (s.apply a).Parks := by
  intro n hn
  -- Only a spawn of the node itself makes work pending for it; the others leave it or take from it.
  by_cases ha : ∃ f policy groupId, a = .call (.spawn n f policy groupId)
  · obtain ⟨f, policy, groupId, rfl⟩ := ha
    have hpolicy : (s.apply (.call (.spawn n f policy groupId))).manager.policyOf n =
        some (s.manager.stateOr n policy groupId).policy := by
      simp only [PolledSystem.apply, AsyncSystem.apply, policyOf_spawn]
      exact policyOf_of_get get_record
    by_cases hc : (s.manager.stateOr n policy groupId).policy.cancels
    · refine PolledSystem.policyOf_apply (h n ?_) _
      rwa [← pendingOf_spawn_of_cancels hc f]
    · rw [hpolicy, AsyncPolicy.eq_queue_of_not_cancels hc]
  · refine PolledSystem.policyOf_apply (h n ?_) _
    cases a with
    | call a =>
      cases a with
      | createGroup max => exact hn
      | spawn n' f policy groupId =>
        have hne : n ≠ n' := fun heq => ha ⟨f, policy, groupId, by rw [heq]⟩
        have hstate : (s.manager.spawn n' f policy groupId).nodeStates.get n =
            s.manager.nodeStates.get n := get_nodeStates_spawn_of_ne hne f
        rwa [pendingOf, ← hstate]
      | complete id => rwa [← (Shuffles.complete s id n).pendingOf]
      | drain => exact Parks.of_drain hn
    | lastPoll id => rwa [← (Shuffles.lastPoll s id n).pendingOf]
    | send i => rwa [← (Shuffles.send s i n).pendingOf]

/-- What holds between the steps of every run. -/
structure Sound (s : PolledSystem F) : Prop where
  kept : s.Kept
  parks : s.Parks
  accounted : ∀ n, s.manager.Queues n → s.Accounted n

theorem Sound.run (as : List (PolledAction F)) : (run PolledSystem.apply init as).Sound := by
  refine invariant_of_step (I := Sound) (fun s a h => ⟨h.kept.apply a, h.parks.apply a,
    fun n hq => (h.accounted n (queues_of_apply hq)).apply h.kept hq (queues_of_apply hq)⟩)
    ⟨Kept.init, fun n hn => absurd rfl hn, fun n _ => ?_⟩
  exact ⟨InOrder.init.backed, .of_eq InOrder.init.account⟩

/-- Where nothing runs, a queue is that of a group without a slot. -/
theorem Sound.no_slot (h : s.Sound) (hstill : s.Still) {gid : ℕ}
    {group : ConcurrencyGroupState F} (hg : s.manager.groups.get gid = some group)
    (hq : group.queue ≠ []) : group.maxConcurrent = 0 := by
  obtain ⟨-, hfull, hlive⟩ := h.kept.slots gid group hg
  have hnone : s.liveIn gid = 0 := by rw [liveIn, hstill.running, hstill.resultRx]; rfl
  have := hfull hq
  omega

theorem Sound.waits (h : s.Sound) (hstill : s.Still) {n : NodeId}
    (hw : s.manager.waitingOf n ≠ []) :
    ∃ gid group, s.manager.groupOf n = some (gid, group) ∧ group.maxConcurrent = 0 := by
  cases hg : s.manager.groupOf n with
  | none => exact absurd (by rw [waitingOf, hg]) hw
  | some gg =>
    obtain ⟨gid, group⟩ := gg
    refine ⟨gid, group, rfl, h.no_slot hstill (groupOf_eq_some.mp hg).2 fun hnil => hw ?_⟩
    simp only [waitingOf, hg, hnil, List.filter_nil, List.map_nil]

/-- Where nothing runs, all that waits is of such groups. What is pending waits behind work of its
own node, which does not run, so it waits for a slot; and a group with work queued and a slot free
has been moved up. -/
theorem Sound.stuck (h : s.Sound) (hstill : s.Still) {w : NodeId × F}
    (hw : w ∈ s.manager.stock) :
    ∃ gid group, s.manager.groupOf w.1 = some (gid, group) ∧ group.maxConcurrent = 0 := by
  have hrun : s.manager.runtime.running = [] :=
    (List.append_eq_nil_iff.mp hstill.running).2
  simp only [stock, hrun, List.map_nil, Multiset.coe_nil, zero_add, Multiset.mem_add] at hw
  rcases hw with hw | hw
  -- pending at its node: something of the node is ahead of it, and since nothing runs that is
  -- queued at its group
  · obtain ⟨n, state, hs, hmem⟩ := FinMap.mem_total hw
    obtain ⟨f, hf, rfl⟩ := List.mem_map.mp (Multiset.mem_coe.mp hmem)
    have hpend : s.manager.pendingOf n ≠ [] := by
      rw [pendingOf_of_get hs]
      exact List.ne_nil_of_mem hf
    have hahead := (backed_iff.mp
      (h.accounted n (queues_of_policy (h.parks n hpend))).backed).2 hpend
    have hunfinished : s.unfinishedOf n = [] := by
      rw [unfinishedOf, resultsOf, runningOf, hstill.running, hstill.resultRx]
      rfl
    rw [aheadOf, hunfinished, List.nil_append] at hahead
    exact h.waits hstill hahead
  -- queued at its group, which then has no slot
  · obtain ⟨gid, group, hg, hmem⟩ := FinMap.mem_total hw
    obtain ⟨work, hwork, rfl⟩ := List.mem_map.mp (Multiset.mem_coe.mp hmem)
    have hgid := h.kept.wf.manager.queue_own gid group hg work hwork
    exact ⟨gid, group, groupOf_eq_some.mpr ⟨hgid, hg⟩,
      h.no_slot hstill hg (List.ne_nil_of_mem hwork)⟩

/-- The end of a run that has cancelled `lost`. -/
structure Settles (s : PolledSystem F) (lost : List (NodeId × F)) : Prop where
  still : s.Still
  account : (↑s.spawned : Multiset (NodeId × F)) = ↑s.drained + ↑lost + s.manager.stock
  newest : ∀ n, (futuresOf n lost).Subperm (s.spawnedOf n).dropLast
  waiting : ∀ w ∈ s.manager.stock,
    ∃ gid group, s.manager.groupOf w.1 = some (gid, group) ∧ group.maxConcurrent = 0

theorem Ledger.settles {lost : List (NodeId × F)} (h : s.Ledger lost) (hs : s.Sound)
    (hstill : s.Still) : s.Settles lost := by
  refine ⟨hstill, ?_, h.newest, fun w hw => hs.stuck hstill hw⟩
  have hfin : s.finishing = [] := (List.append_eq_nil_iff.mp hstill.running).1
  rw [h.account, whereabouts, hstill.resultRx, hfin]
  simp only [List.map_nil, Multiset.coe_nil, add_zero]
  abel

/-- **When the triggers stop, everything is delivered.** After any run, let the tasks and the drains
go on in any fair order for ever: from some point on nothing changes any more. Then nothing runs,
and every future that was spawned is drained or was cancelled, and of each node the newest one was
not; or it waits for a group that may run nothing.

The run before is any run; the schedule after is endless and fair. No bound is given on how long it
takes. -/
theorem comes_to_rest (as : List (PolledAction F)) {f : ℕ → PolledAction F} (hf : Fair f) :
    ∃ n, (Rest.states PolledSystem.apply (run PolledSystem.apply init as) f n).Settles
        (trace PolledSystem.apply cancels init as) ∧
      ∀ m, n ≤ m → Rest.states PolledSystem.apply (run PolledSystem.apply init as) f m =
        Rest.states PolledSystem.apply (run PolledSystem.apply init as) f n := by
  obtain ⟨n, hrest, hfixed⟩ := lowers.eventually_rests
    (s := run PolledSystem.apply init as) trivial hf.works
  refine ⟨n, ?_, hrest⟩
  have hstill := Still.of_fixed hf hfixed
  have hlost : trace PolledSystem.apply cancels (run PolledSystem.apply init as)
      ((List.range n).map f) = [] := by
    refine trace_eq_nil (c := Works) (fun s a ha => ?_) ?_
    · match a with
      | .call (.complete _) | .call .drain | .lastPoll _ | .send _ => rfl
    · simpa using fun m _ => hf.works m
  have hledger := ledger_run (as ++ (List.range n).map f)
  rw [trace_append, hlost, List.append_nil, run_append, ← Rest.states_eq_run] at hledger
  have hsound := Sound.run (as ++ (List.range n).map f)
  rw [run_append, ← Rest.states_eq_run] at hsound
  exact hledger.settles hsound hstill

/-- A fair schedule: every task comes round again and again, and in between a task in its last poll
sends, and results are drained. -/
def rounds (k : ℕ) : PolledAction F :=
  if k % 3 = 0 then .call (.complete (Nat.unpair (k / 3)).1)
  else if k % 3 = 1 then .send 0
  else .call .drain

theorem Fair.rounds : Fair (rounds : ℕ → PolledAction F) where
  works k := by
    unfold PolledSystem.rounds
    split
    · trivial
    · split <;> trivial
  tasks id n := by
    have hle := Nat.right_le_pair id n
    refine ⟨3 * Nat.pair id n, by omega, Or.inl ?_⟩
    rw [PolledSystem.rounds, if_pos (Nat.mul_mod_right 3 _), Nat.mul_div_cancel_left _ (by decide),
      Nat.unpair_pair]
  sends n := ⟨3 * n + 1, by omega, by
    rw [PolledSystem.rounds, if_neg (by omega), if_pos (by omega)]⟩
  drains n := ⟨3 * n + 2, by omega, by
    rw [PolledSystem.rounds, if_neg (by omega), if_neg (by omega)]⟩

/-- Two nodes share one slot; the first is triggered again while it runs, the second waits for the
slot with one future and, when it has it, is triggered again. -/
def oneSlot : List (PolledAction ℕ) :=
  [.call (.createGroup 1), .call (.spawn nodeA 1 .latestWins (some 0)),
    .call (.spawn nodeB 2 .queue (some 0)), .call (.spawn nodeA 3 .latestWins (some 0)),
    .call (.complete 1), .call .drain, .call (.spawn nodeB 4 .queue (some 0))]

theorem comes_to_rest_in_one_slot :
    ∃ n, (Rest.states PolledSystem.apply (run PolledSystem.apply init oneSlot) rounds n).Settles
        (trace PolledSystem.apply cancels init oneSlot) ∧
      ∀ m, n ≤ m → Rest.states PolledSystem.apply (run PolledSystem.apply init oneSlot) rounds m =
        Rest.states PolledSystem.apply (run PolledSystem.apply init oneSlot) rounds n :=
  comes_to_rest oneSlot .rounds

end PolledSystem

end ReactiveGraph
