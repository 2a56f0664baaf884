import Mathlib.Data.Nat.Pairing
import ReactiveGraph.Lib.Cascade
import ReactiveGraph.Lib.Rest
import ReactiveGraph.Proof.AsyncWork
import ReactiveGraph.Proof.Linearization
import ReactiveGraph.Proof.Representation

/-!
# The threads come to rest

When the clients stop, the loop, the bridge and the tasks go on by themselves: a value wakes the
loop, a cycle spawns futures, their results wake the loop again. This ends, whatever was merged and
removed, loops of nodes included: a cycle executes no node that a loop leads back to, so a result
can only set off nodes that it will not be set off by. Each thing under way gets a price that pays
for what it can lead to (`cost`), the prices of the nodes' updates come from `Cascade.worth`, and
every step is paid for by what it takes away. A merge or a removal changes the wiring and with it
the prices; there are finitely many of those left.

**The rank is a pair**, the commands to come that change the wiring and then the cost of what is
under way. Every step of a party either lowers it or changes nothing, and a party that has something
to do lowers it when its turn comes. The library on schedules does the rest: under a fair one the
state stops changing, and then no party has anything to do.

**Fairness** is asked of each party, and of each task, by itself: it takes a step again and again.
Nothing else is asked of the schedule, and no bound is given on how long rest takes. Clients are
silent in it; what they have sent by then may still be anywhere.

**At rest** nothing runs and no channel holds anything, and unless the loop has stopped every value
that was sent has been drained; that is `Awake`, which says that nothing is left waiting alone. The
futures here are values that are there when a task is let complete: a future that never completes
would keep its task running, and a fair schedule lets every task complete.
-/

namespace ReactiveGraph

open Engine

variable {V : Type*}

/-! ## What an update sets off -/

namespace Topology

variable {t : Topology} {u v : NodeId}

/-- The nodes that an update of `u` can have executed: downstream of `u`, and not of themselves.
Along this relation there is no way back, on any topology. -/
def setOff (t : Topology) (u : NodeId) : Finset NodeId :=
  (t.dirtySet default {u}).filter fun v => v ∉ t.dirtySet default {v}

theorem mem_setOff : v ∈ t.setOff u ↔ t.Downstream u v ∧ ¬ t.Downstream v v := by
  simp [setOff, mem_dirtySet]

theorem card_setOff_lt (h : v ∈ t.setOff u) : (t.setOff v).card < (t.setOff u).card := by
  obtain ⟨huv, hv⟩ := mem_setOff.mp h
  refine Finset.card_lt_card ⟨fun w hw => ?_, fun hsub => ?_⟩
  · obtain ⟨hvw, hww⟩ := mem_setOff.mp hw
    exact mem_setOff.mpr ⟨huv.trans hvw, hww⟩
  · exact hv (mem_setOff.mp (hsub h)).1

/-- **A cycle executes what its updates set off**: no node that a loop leads to is sorted. Only the
bound on listed edges is needed. -/
theorem setOff_of_mem_topoSort (hle : t.AtMost) {o o' : IterOrder} {sources : Finset NodeId}
    (hv : v ∈ t.topoSort o (t.dirtySet o' sources)) : ∃ u ∈ sources, v ∈ t.setOff u := by
  have hsorted := sorted_topoSort hle o (t.dirtySet o' sources)
  obtain ⟨u, hu, huv⟩ := mem_dirtySet.mp (hsorted.subset v hv)
  refine ⟨u, hu, mem_setOff.mpr ⟨huv, fun hloop => ?_⟩⟩
  -- the loop is downstream of the update, so it is dirty all along
  have hwithin : ∀ {w}, t.Downstream v w →
      Relation.TransGen (Dag.Within t.depsOf (t.dirtySet o' sources)) v w := by
    intro w hvw
    induction hvw with
    | single hedge =>
      exact .single ⟨hle.mem_depsOf hedge, hsorted.subset v hv,
        mem_dirtySet.mpr ⟨u, hu, huv.tail hedge⟩⟩
    | tail hvx hedge ih =>
      exact ih.tail ⟨hle.mem_depsOf hedge, mem_dirtySet.mpr ⟨u, hu, huv.trans hvx⟩,
        mem_dirtySet.mpr ⟨u, hu, (huv.trans hvx).tail hedge⟩⟩
  exact hsorted.ordered.no_cycle hv (hwithin hloop) .refl

end Topology

/-- At most one future for each node that is executed. -/
theorem Engine.sublist_spawnsAlong (e : Engine V) (l : List NodeId) (store : ValueStore V) :
    ((e.spawnsAlong l store).map AsyncSpawn.nodeId).Sublist l := by
  induction l generalizing store with
  | nil => exact List.Sublist.slnil
  | cons id l ih =>
    have hone : ((e.nodeSpawns id store).map AsyncSpawn.nodeId).Sublist [id] := by
      unfold nodeSpawns
      split
      · split
        · split
          · exact List.Sublist.refl _
          · exact List.nil_sublist _
        · exact List.nil_sublist _
      · exact List.nil_sublist _
    rw [spawnsAlong, List.map_append]
    exact hone.append (ih _)

namespace Threads

variable {t t' : Threads V}

/-! ## Prices

`w` is what an update of a node is worth. A value pays its way into the store and the update there;
a future pays for its completion, its notification and the way of its result. -/

/-- What it takes to process a command: a step, and for a value the way from the source channel
on. -/
def processCost (w : NodeId → ℕ) : Command V → ℕ
  | .sourceUpdate id _ => w id + 3
  | .merge _ _ | .remove _ | .asyncComplete | .sourceReady | .shutdown => 2

def loopCost (w : NodeId → ℕ) : LoopPc V → ℕ
  | .blocked | .stopped => 0
  | .collecting commands => 6 + (commands.map (processCost w)).sum
  | .processing commands _ _ => 5 + (commands.map (processCost w)).sum
  | .sending outbox _ commands _ _ =>
    6 + (outbox.map fun msg => w msg.1 + 14).sum + (commands.map (processCost w)).sum
  | .drainingSources updated _ => 4 + (updated.map w).sum
  | .drainingResults updated results _ =>
    3 + (updated.map w).sum + (results.map fun r => w r.1 + 1).sum
  | .completing completed updated results _ =>
    2 + completed.length + (updated.map w).sum + (results.map fun r => w r.1).sum
  | .spawning spawns _ _ => 1 + (spawns.map fun s => w s.nodeId + 14).sum

def bridgeCost (w : NodeId → ℕ) : BridgePc V → ℕ
  | .blocked => 0
  | .forwarding msg => w msg.1 + 12
  | .notifying => 10

/-- The tasks, the futures that wait and the results. -/
def managerCost (w : NodeId → ℕ) (m : AsyncManager V) : ℕ :=
  (m.stock.map fun work => w work.1 + 13).sum + (m.resultRx.map fun r => w r.1 + 2).sum +
    10 * m.runtime.notifying

/-- Everything that is under way, each at its price. The numbers are such that every step has
something left over. -/
def cost (w : NodeId → ℕ) (t : Threads V) : ℕ :=
  (t.commands.map fun c => 7 + processCost w c).sum + loopCost w t.loop + bridgeCost w t.bridge +
    (t.bridgeRx.map fun msg => w msg.1 + 13).sum +
    (t.engine.graph.sourceRx.map fun msg => w msg.1 + 1).sum + managerCost w t.engine.asyncManager

/-- An update pays, for each node that it sets off, for a future and the update that comes of it. It
depends on the topology, and so on the state, which is why the wiring has to stay for the cost to go
down. -/
def worth (t : Threads V) : NodeId → ℕ := Cascade.worth t.engine.topology.setOff 14

/-- The commands that change the wiring. -/
def rewires : Command V → Bool
  | .merge _ _ | .remove _ => true
  | .sourceUpdate _ _ | .asyncComplete | .sourceReady | .shutdown => false

/-- The changes of the wiring that are still to come, and what is under way till the next one. Pairs
are compared lexicographically. -/
def rank (t : Threads V) : ℕ × ℕ :=
  ((t.loop.collected ++ t.commands).countP rewires, t.cost t.worth)

/-- A step that leaves the wiring and makes what is under way cheaper. -/
structure Cheaper (t' t : Threads V) : Prop where
  topology : t'.engine.topology = t.engine.topology
  rewires : (t'.loop.collected ++ t'.commands).countP rewires =
    (t.loop.collected ++ t.commands).countP rewires
  cost : t'.cost t.worth < t.cost t.worth

theorem Cheaper.rank_lt (h : Cheaper t' t) : Prod.Lex (· < ·) (· < ·) t'.rank t.rank := by
  have hworth : t'.worth = t.worth := by rw [worth, worth, h.topology]
  rw [rank, rank, hworth, h.rewires]
  exact .right _ h.cost

/-! ### The manager -/

section Manager

variable {m m' : AsyncManager V} (w : NodeId → ℕ)

theorem managerCost_congr (hstock : m'.stock = m.stock) (h : m.SameSends m') :
    managerCost w m' = managerCost w m := by
  rw [managerCost, managerCost, hstock, h.resultRx, h.notifying]

/-- A trigger costs the future that it spawns, whatever it cancels. -/
theorem managerCost_spawn_le (m : AsyncManager V) (n : NodeId) (f : V) (policy : AsyncPolicy)
    (groupId : Option ℕ) :
    managerCost w (m.spawn n f policy groupId) ≤ managerCost w m + (w n + 13) := by
  have hstock := congrArg (fun works => (works.map fun work => w work.1 + 13).sum)
    (m.stock_spawn n f policy groupId)
  have hsame := AsyncManager.SameSends.spawn m n f policy groupId
  simp only [Multiset.map_add, Multiset.sum_add, Multiset.map_singleton,
    Multiset.sum_singleton] at hstock
  rw [managerCost, managerCost, hsame.resultRx, hsame.notifying]
  omega

/-- A task that completes has paid for its two sends. -/
theorem managerCost_complete (m : AsyncManager V) (id : TaskId) :
    m.runtime.find id = none ∧ m.complete id = m ∨
      managerCost w (m.complete id) < managerCost w m := by
  cases hfind : m.runtime.find id with
  | none => exact Or.inl ⟨rfl, by simp only [AsyncManager.complete, hfind]⟩
  | some task =>
    obtain ⟨hmem, rfl⟩ := Runtime.find_some hfind
    have hm := AsyncManager.complete_of_mem hmem
    have hrx : (m.complete task.id).resultRx = m.resultRx ++ [(task.nodeId, task.future)] := by
      rw [hm]
    have hnot : (m.complete task.id).runtime.notifying ≤ m.runtime.notifying + 1 := by
      rw [hm]
      simp only [Runtime.finish]
      split <;> omega
    have hstock : (m.complete task.id).stock + {(task.nodeId, task.future)} = m.stock := by
      rw [hm]
      exact AsyncManager.stock_removed hmem _ rfl _
    have hsum := congrArg (fun works => (works.map fun work => w work.1 + 13).sum) hstock
    simp only [Multiset.map_add, Multiset.sum_add, Multiset.map_singleton,
      Multiset.sum_singleton] at hsum
    refine Or.inr ?_
    rw [managerCost, managerCost, hrx]
    simp only [List.map_append, List.sum_append, List.map_cons, List.map_nil, List.sum_cons,
      List.sum_nil]
    omega

end Manager

/-! ### The bridge and the tasks -/

theorem Cheaper.bridgeStep (t : Threads V) :
    (t.bridge = .blocked ∧ t.bridgeRx = [] ∧ t.bridgeStep = t) ∨ Cheaper t.bridgeStep t := by
  unfold Threads.bridgeStep
  cases hpc : t.bridge with
  | blocked =>
    cases hrx : t.bridgeRx with
    | nil => exact Or.inl ⟨rfl, rfl, rfl⟩
    | cons msg bridgeRx =>
      refine Or.inr ⟨rfl, rfl, ?_⟩
      simp only [Threads.cost, hpc, hrx, bridgeCost, List.map_cons, List.sum_cons]
      omega
  | forwarding msg =>
    refine Or.inr ⟨rfl, rfl, ?_⟩
    simp only [Threads.cost, hpc, bridgeCost, List.map_append, List.sum_append, List.map_cons,
      List.map_nil, List.sum_cons, List.sum_nil]
    omega
  | notifying =>
    refine Or.inr ⟨rfl, ?_, ?_⟩
    · simp [List.countP_append, Threads.rewires]
    · simp only [Threads.cost, hpc, bridgeCost, processCost, List.map_append, List.sum_append,
        List.map_cons, List.map_nil, List.sum_cons, List.sum_nil]
      omega

/-- `sent` is a record, and no part of what moves. -/
theorem completeStep_of_none {id : TaskId} (h : t.engine.asyncManager.runtime.find id = none)
    (hm : t.engine.asyncManager.complete id = t.engine.asyncManager) : t.completeStep id = t := by
  simp only [Threads.completeStep, h, hm, Option.elim_none, zero_add]

theorem Cheaper.completeStep (t : Threads V) (id : TaskId) :
    (t.engine.asyncManager.runtime.find id = none ∧ t.completeStep id = t) ∨
      Cheaper (t.completeStep id) t := by
  obtain ⟨hnone, hm⟩ | hlt := managerCost_complete t.worth t.engine.asyncManager id
  · exact Or.inl ⟨hnone, completeStep_of_none hnone hm⟩
  · refine Or.inr ⟨rfl, rfl, ?_⟩
    simp only [Threads.cost, Threads.completeStep]
    omega

theorem Cheaper.notifyStep (t : Threads V) :
    (t.engine.asyncManager.runtime.notifying = 0 ∧ t.notifyStep = t) ∨
      Cheaper t.notifyStep t := by
  unfold Threads.notifyStep
  simp only
  split
  · next hpos =>
    have hstock : AsyncManager.stock { t.engine.asyncManager with
        runtime := { t.engine.asyncManager.runtime with
          notifying := t.engine.asyncManager.runtime.notifying - 1 } } =
        t.engine.asyncManager.stock := rfl
    refine Or.inr ⟨rfl, ?_, ?_⟩
    · simp [List.countP_append, Threads.rewires]
    · simp only [Threads.cost, managerCost, hstock, processCost, List.map_append, List.sum_append,
        List.map_cons, List.map_nil, List.sum_cons, List.sum_nil]
      omega
  · next hpos => exact Or.inl ⟨by omega, rfl⟩

/-! ### The loop -/

/-- A command about values leaves the wiring, and its value has paid for the way into the store. -/
theorem Cheaper.process (hb : t.engine.graph.bridge = some []) {c : Command V}
    {commands : List (Command V)} {hasUpdates shouldShutdown : Bool}
    (hpc : t.loop = .processing (c :: commands) hasUpdates shouldShutdown)
    (hc : Threads.rewires c = false) :
    Cheaper (t.process c commands hasUpdates shouldShutdown) t := by
  have hrewires : ((t.process c commands hasUpdates shouldShutdown).loop.collected ++
      (t.process c commands hasUpdates shouldShutdown).commands).countP Threads.rewires =
      (t.loop.collected ++ t.commands).countP Threads.rewires := by
    simp [Threads.process, hpc, LoopPc.collected, hc]
  cases c with
  | merge => exact absurd hc (by simp [Threads.rewires])
  | remove => exact absurd hc (by simp [Threads.rewires])
  | sourceUpdate id value =>
    refine ⟨rfl, hrewires, ?_⟩
    simp only [Threads.cost, Threads.process, EventLoop.handle, hpc, hb, loopCost, processCost,
      Option.getD_some, List.map_nil, List.sum_nil, List.map_append, List.sum_append,
      List.map_cons, List.sum_cons]
    omega
  | asyncComplete | sourceReady | shutdown =>
    refine ⟨rfl, hrewires, ?_⟩
    simp only [Threads.cost, Threads.process, EventLoop.handle, hpc, hb, loopCost, processCost,
      Option.getD_some, List.map_nil, List.sum_nil, List.map_cons, List.sum_cons]
    omega

/-- A command that changes the wiring is one of those that were to come. -/
theorem rank_process_of_rewires {c : Command V} {commands : List (Command V)}
    {hasUpdates shouldShutdown : Bool}
    (hpc : t.loop = .processing (c :: commands) hasUpdates shouldShutdown)
    (hc : Threads.rewires c = true) : Prod.Lex (· < ·) (· < ·)
      (t.process c commands hasUpdates shouldShutdown).rank t.rank := by
  refine .left _ _ ?_
  simp [Threads.process, hpc, LoopPc.collected, hc]

/-- The futures that a cycle spawns are paid for by the updates it was run for. Each node that is
executed is set off by one of them, and gives one future at most. -/
theorem spawns_le (hle : t.engine.topology.AtMost) (e : Engine V) (o o' : IterOrder)
    (ids : List NodeId) :
    ((e.executeSequentialWithAsync (t.engine.topology.topoSort o
        (t.engine.topology.dirtySet o' ids.toFinset))).spawns.map
      fun s => t.worth s.nodeId + 14).sum ≤ (ids.map t.worth).sum := by
  have hnd := (Topology.sorted_topoSort hle o
    (t.engine.topology.dirtySet o' ids.toFinset)).nodup
  have hcov : ∀ v ∈ t.engine.topology.topoSort o (t.engine.topology.dirtySet o' ids.toFinset),
      ∃ u ∈ ids, v ∈ t.engine.topology.setOff u := by
    intro v hv
    obtain ⟨u, hu, hmem⟩ := Topology.setOff_of_mem_topoSort hle hv
    exact ⟨u, List.mem_toFinset.mp hu, hmem⟩
  rw [(executeSequentialWithAsync_eq e _).2]
  generalize t.engine.topology.topoSort o (t.engine.topology.dirtySet o' ids.toFinset) = sorted
    at hnd hcov
  have hsub := e.sublist_spawnsAlong sorted e.graph.valueStore
  generalize e.spawnsAlong sorted e.graph.valueStore = spawns at hsub
  calc (spawns.map fun s => t.worth s.nodeId + 14).sum
      = ((spawns.map AsyncSpawn.nodeId).map fun v => 14 + t.worth v).sum := by
        rw [List.map_map]
        exact congrArg List.sum (List.map_congr_left fun s _ => Nat.add_comm _ _)
    _ ≤ (sorted.map fun v => 14 + t.worth v).sum :=
        (hsub.map fun v => 14 + t.worth v).sum_le_sum fun _ _ => Nat.zero_le _
    _ ≤ (ids.map fun u => ∑ v ∈ t.engine.topology.setOff u, (14 + t.worth v)).sum :=
        Cascade.sum_le_of_covered _ hnd hcov
    _ ≤ (ids.map t.worth).sum :=
        List.sum_le_sum fun u _ =>
          Cascade.sum_worth_le (fun _ hv => Topology.card_setOff_lt hv) 14

theorem loopCost_nextPc (w : NodeId → ℕ) (shouldShutdown : Bool) :
    loopCost w (nextPc shouldShutdown : LoopPc V) = 0 := by
  cases shouldShutdown <;> rfl

theorem Cheaper.execute (hle : t.engine.topology.AtMost) (o : CycleOrder)
    {updated : List NodeId} {results : List (NodeId × V)} {shouldShutdown : Bool}
    (hpc : t.loop = .completing [] updated results shouldShutdown) :
    Cheaper (t.execute o updated results shouldShutdown) t := by
  -- what was drained has paid for the nodes it sets off
  have hpaid : (updated.map t.worth).sum + (results.map fun r => t.worth r.1).sum =
      ((updated ++ results.map Prod.fst).map t.worth).sum := by
    rw [List.map_append, List.sum_append, List.map_map]
    rfl
  unfold Threads.execute
  simp only
  split
  · refine ⟨rfl, by rw [hpc, collected_nextPc]; rfl, ?_⟩
    simp only [Threads.cost, hpc, loopCost_nextPc, setStore]
    simp only [loopCost]
    omega
  · have hspawns := spawns_le hle
      (t.engine.setStore (Engine.receive t.engine.graph.valueStore results)) o.dirty o.sources
      (updated ++ results.map Prod.fst)
    obtain ⟨⟨hrx, -, hm⟩, -⟩ := sameChannels_execute
      (t.engine.setStore (Engine.receive t.engine.graph.valueStore results))
      (t.engine.topology.topoSort o.dirty
        (t.engine.topology.dirtySet o.sources (updated ++ results.map Prod.fst).toFinset))
    have htopology := (sameStructure_execute
      (t.engine.setStore (Engine.receive t.engine.graph.valueStore results))
      (t.engine.topology.topoSort o.dirty
        (t.engine.topology.dirtySet o.sources
          (updated ++ results.map Prod.fst).toFinset))).topology
    refine ⟨htopology, by rw [hpc]; rfl, ?_⟩
    simp only [Threads.cost, hpc, loopCost]
    rw [show (t.engine.setStore (Engine.receive t.engine.graph.valueStore results)).topology =
      t.engine.topology from rfl, hrx, hm]
    simp only [setStore, List.length_nil] at hspawns ⊢
    omega

/-- The loop is asleep on an empty channel, or has stopped. -/
def LoopRests (t : Threads V) : Prop := t.loop = .blocked ∧ t.commands = [] ∨ t.loop = .stopped

/-- **Every step of the loop is paid for.** One case for each place where the loop can be; at rest
it has nothing to do and the step changes nothing. -/
theorem rank_loopStep (hb : t.engine.graph.bridge = some [])
    (hp : t.engine.pendingRemovals = []) (hle : t.engine.topology.AtMost) (o : CycleOrder) :
    t.LoopRests ∧ t.loopStep o = t ∨
      Prod.Lex (· < ·) (· < ·) (t.loopStep o).rank t.rank := by
  unfold Threads.loopStep
  cases hpc : t.loop with
  | blocked =>
    cases hcs : t.commands with
    | nil => exact Or.inl ⟨Or.inl ⟨hpc, hcs⟩, rfl⟩
    | cons c commands =>
      refine Or.inr (Cheaper.rank_lt ⟨rfl, by rw [hpc, hcs]; rfl, ?_⟩)
      simp only [Threads.cost, hpc, hcs, loopCost, List.map_cons, List.map_nil, List.sum_cons,
        List.sum_nil]
      omega
  | collecting collected =>
    cases hcs : t.commands with
    | nil =>
      refine Or.inr (Cheaper.rank_lt ⟨rfl, by rw [hpc, hcs]; rfl, ?_⟩)
      simp only [Threads.cost, hpc, hcs, loopCost]
      omega
    | cons c commands =>
      refine Or.inr (Cheaper.rank_lt ⟨rfl, ?_, ?_⟩)
      · rw [hpc, hcs, List.append_cons]
        rfl
      · simp only [Threads.cost, hpc, hcs, loopCost, List.map_append, List.sum_append,
          List.map_cons, List.map_nil, List.sum_cons, List.sum_nil]
        omega
  | processing commands hasUpdates shouldShutdown =>
    cases commands with
    | cons c commands =>
      -- a command that rewires lowers the first component, whatever it adds to the second
      cases hc : Threads.rewires c with
      | true => exact Or.inr (rank_process_of_rewires hpc hc)
      | false => exact Or.inr (Cheaper.process hb hpc hc).rank_lt
    | nil =>
      cases hasUpdates with
      | true =>
        simp only [drainPendingRemovals_of_nil hp]
        refine Or.inr (Cheaper.rank_lt ⟨rfl, by rw [hpc]; rfl, ?_⟩)
        simp only [Threads.cost, hpc, loopCost, List.map_nil, List.sum_nil]
        omega
      | false =>
        refine Or.inr (Cheaper.rank_lt ⟨rfl, by rw [hpc, collected_nextPc]; rfl, ?_⟩)
        simp only [Threads.cost, hpc, loopCost_nextPc]
        simp only [loopCost]
        omega
  | sending outbox replies commands hasUpdates shouldShutdown =>
    cases outbox with
    | cons msg outbox =>
      refine Or.inr (Cheaper.rank_lt ⟨rfl, by rw [hpc]; rfl, ?_⟩)
      simp only [Threads.cost, hpc, loopCost, List.map_append, List.sum_append, List.map_cons,
        List.map_nil, List.sum_cons, List.sum_nil]
      omega
    | nil =>
      refine Or.inr (Cheaper.rank_lt ⟨rfl, by rw [hpc]; rfl, ?_⟩)
      simp only [Threads.cost, hpc, loopCost, List.map_nil, List.sum_nil]
      omega
  | drainingSources updated shouldShutdown =>
    cases hrx : t.engine.graph.sourceRx with
    | nil =>
      refine Or.inr (Cheaper.rank_lt ⟨rfl, by rw [hpc]; rfl, ?_⟩)
      simp only [Threads.cost, hpc, loopCost, List.map_nil, List.sum_nil]
      omega
    | cons msg sourceRx =>
      refine Or.inr (Cheaper.rank_lt ⟨rfl, by rw [hpc]; rfl, ?_⟩)
      simp only [Threads.cost, hpc, hrx, loopCost, List.map_append, List.sum_append, List.map_cons,
        List.map_nil, List.sum_cons, List.sum_nil]
      omega
  | drainingResults updated results shouldShutdown =>
    cases hrx : t.engine.asyncManager.resultRx with
    | nil =>
      -- a result pays for its completion and for what it sets off
      have hresults : (results.map fun r => t.worth r.1 + 1).sum =
          (results.map fun r => t.worth r.1).sum + results.length := by
        rw [List.sum_map_add, List.map_const', List.sum_replicate_nat, mul_one]
      refine Or.inr (Cheaper.rank_lt ⟨rfl, by rw [hpc]; rfl, ?_⟩)
      simp only [Threads.cost, hpc, loopCost, hresults, List.length_map]
      omega
    | cons result resultRx =>
      refine Or.inr (Cheaper.rank_lt ⟨rfl, by rw [hpc]; rfl, ?_⟩)
      have hstock : AsyncManager.stock { t.engine.asyncManager with resultRx := resultRx } =
          t.engine.asyncManager.stock := rfl
      simp only [Threads.cost, hpc, hrx, hstock, loopCost, managerCost, List.map_append,
        List.sum_append, List.map_cons, List.map_nil, List.sum_cons, List.sum_nil]
      omega
  | completing completed updated results shouldShutdown =>
    cases completed with
    | cons id completed =>
      have hmanager := managerCost_congr t.worth
        (AsyncManager.stock_processCompletion t.engine.asyncManager id) (.processCompletion _ id)
      refine Or.inr (Cheaper.rank_lt ⟨rfl, by rw [hpc]; rfl, ?_⟩)
      simp only [Threads.cost, hpc, hmanager, loopCost, List.length_cons]
      omega
    | nil => exact Or.inr (Cheaper.execute hle o hpc).rank_lt
  | spawning spawns metrics shouldShutdown =>
    cases spawns with
    | cons s spawns =>
      have hmanager := managerCost_spawn_le t.worth t.engine.asyncManager s.nodeId s.future s.policy
        s.groupId
      refine Or.inr (Cheaper.rank_lt ⟨rfl, by rw [hpc]; rfl, ?_⟩)
      simp only [Threads.cost, hpc, spawnAsyncWork, loopCost, List.foldl_cons, List.foldl_nil,
        List.map_cons, List.sum_cons]
      omega
    | nil =>
      refine Or.inr (Cheaper.rank_lt ⟨rfl, by rw [hpc, collected_nextPc]; rfl, ?_⟩)
      simp only [Threads.cost, hpc, loopCost_nextPc]
      simp only [loopCost, List.map_nil, List.sum_nil]
      omega
  | stopped => exact Or.inl ⟨Or.inr hpc, rfl⟩

end Threads

/-! ## The engine that the loop works on -/

namespace EventLoop

theorem represented_start : (start : Engine V).Represented :=
  Represented.new.sameNodes ⟨rfl, rfl, rfl, rfl, rfl⟩

theorem represented_handle {s : Iteration V} (h : s.engine.Represented) (c : Command V) :
    (handle s c).engine.Represented := by
  cases c with
  | merge subgraph reply =>
    exact Represented.stable.activateSinks _ (Represented.stable.registerAll _ h)
  | remove nodeIds => exact Represented.stable.release _ h
  | sourceUpdate id value => exact h.sameNodes ⟨rfl, rfl, rfl, rfl, rfl⟩
  | asyncComplete | sourceReady | shutdown => exact h

theorem represented_handleAll (commands : List (Command V)) :
    (handleAll start commands).engine.Represented := by
  induction commands using List.reverseRecOn with
  | nil => exact represented_start
  | append_singleton commands c ih =>
    rw [handleAll_snoc]
    exact represented_handle ih c

end EventLoop

namespace Threads

variable {t t' : Threads V}

/-- What the steps of the parties keep. -/
def Steady (t : Threads V) : Prop := t.Awake ∧ ∃ posted handled, t.Linear posted handled

theorem Steady.init : Steady (init : Threads V) := ⟨.init, _, _, .init⟩

theorem Steady.apply (h : t.Steady) (m : Move V) : (t.apply m).Steady := by
  obtain ⟨hawake, posted, handled, hlinear⟩ := h
  exact ⟨hawake.apply m, _, _, hlinear.apply m⟩

theorem Steady.atMost (h : t.Steady) : t.engine.topology.AtMost := by
  obtain ⟨-, _, handled, hlinear⟩ := h
  rw [hlinear.wiring.topology]
  exact (EventLoop.represented_handleAll handled).edges

theorem Steady.pendingRemovals (h : t.Steady) : t.engine.pendingRemovals = [] :=
  h.2.choose_spec.choose_spec.undeferred

/-! ## Endless schedules -/

/-- A move of the loop, the bridge or a task: no client is needed for it. -/
def Internal : Move V → Prop
  | .loop _ | .bridge | .complete _ | .notify => True
  | .send _ _ | .updateSource _ _ | .merge _ _ | .dropHandle _ | .shutdown => False

theorem lowers : Rest.Lowers (@Threads.apply V) Internal Steady (Prod.Lex (· < ·) (· < ·))
    rank where
  wf := (Prod.lex ⟨_, Nat.lt_wfRel.wf⟩ ⟨_, Nat.lt_wfRel.wf⟩).wf
  keeps _ m h _ := h.apply m
  lowers t m h hm := by
    match m with
    | .loop o => exact (rank_loopStep h.1.bridge h.pendingRemovals h.atMost o).imp_left And.right
    | .bridge => exact (Cheaper.bridgeStep t).imp (fun h => h.2.2) Cheaper.rank_lt
    | .complete id => exact (Cheaper.completeStep t id).imp And.right Cheaper.rank_lt
    | .notify => exact (Cheaper.notifyStep t).imp And.right Cheaper.rank_lt

/-- Every party that can go on by itself does so again and again. Each task is a party of its
own. -/
structure Fair (f : ℕ → Move V) : Prop where
  internal : ∀ n, Internal (f n)
  loop : Rest.Recurs f fun m => ∃ o, m = .loop o
  bridge : Rest.Recurs f (· = .bridge)
  tasks : ∀ id, Rest.Recurs f (· = .complete id)
  notify : Rest.Recurs f (· = .notify)

/-- Nobody has anything to do. -/
structure AtRest (t : Threads V) : Prop where
  loop : t.LoopRests
  bridge : t.bridge = .blocked
  bridgeRx : t.bridgeRx = []
  running : t.engine.asyncManager.runtime.running = []
  notifying : t.engine.asyncManager.runtime.notifying = 0

theorem not_lex_self {r : ℕ × ℕ} : ¬ Prod.Lex (· < ·) (· < ·) r r := by
  rw [Prod.lex_iff]
  omega

theorem AtRest.of_fixed (h : t.Steady) {f : ℕ → Move V} (hf : Fair f)
    (hfixed : ∀ C, Rest.Recurs f C → ∃ m, C m ∧ t.apply m = t) : t.AtRest := by
  have hirrefl {m : Move V} (hm : t.apply m = t) : ¬ Cheaper (t.apply m) t := fun hlt => by
    have := hlt.rank_lt
    rw [hm] at this
    exact not_lex_self this
  obtain ⟨_, ⟨o, rfl⟩, ho⟩ := hfixed _ hf.loop
  obtain ⟨_, rfl, hb⟩ := hfixed _ hf.bridge
  obtain ⟨_, rfl, hn⟩ := hfixed _ hf.notify
  obtain ⟨hbridge, hrx, -⟩ := (Cheaper.bridgeStep t).resolve_right (hirrefl hb)
  refine ⟨?_, hbridge, hrx, List.eq_nil_iff_forall_not_mem.mpr fun task ht => ?_,
    ((Cheaper.notifyStep t).resolve_right (hirrefl hn)).1⟩
  · refine ((rank_loopStep h.1.bridge h.pendingRemovals h.atMost o).resolve_right fun hlt => ?_).1
    rw [show t.loopStep o = t from ho] at hlt
    exact not_lex_self hlt
  · obtain ⟨_, rfl, hc⟩ := hfixed _ (hf.tasks task.id)
    have hnone := ((Cheaper.completeStep t task.id).resolve_right (hirrefl hc)).1
    rw [Runtime.find_of_mem ht] at hnone
    exact absurd hnone (by simp)

/-- A fair schedule leads to a state where nobody has anything to do, and stays there. -/
theorem Steady.rests (h : t.Steady) {f : ℕ → Move V} (hf : Fair f) :
    ∃ n, (∀ m, n ≤ m → Rest.states Threads.apply t f m = Rest.states Threads.apply t f n) ∧
      (Rest.states Threads.apply t f n).Awake ∧ (Rest.states Threads.apply t f n).AtRest := by
  obtain ⟨n, hrest, hfixed⟩ := lowers.eventually_rests h hf.internal
  have hn := lowers.states h hf.internal n
  exact ⟨n, hrest, hn.1, AtRest.of_fixed hn hf hfixed⟩

theorem steady_run (ms : List (Move V)) : (run ms).Steady :=
  Runs.invariant_of_step (I := Steady) (fun _ m h => h.apply m) .init

theorem AtRest.quiet (h : t.AtRest) (hrun : t.loop ≠ .stopped) : t.Quiet := by
  obtain ⟨hloop, hcommands⟩ := h.loop.resolve_right hrun
  exact ⟨hloop, hcommands, h.bridge, h.bridgeRx, h.notifying⟩

/-- **When the clients stop, the threads come to rest**, and everything that was sent has been
drained. After any run, let the loop, the bridge and the tasks go on in any fair order for ever:
from some point on nothing changes any more. Then the loop is blocked on an empty channel or has
stopped, the bridge is blocked on an empty channel, no task runs or owes a notification; and unless
the loop has stopped, every value ever sent has been drained.

Nothing is assumed of the run or of the graph it has built; it is fairness that is needed, of every
party. -/
theorem quiesces (ms : List (Move V)) {f : ℕ → Move V} (hf : Fair f) :
    ∃ n, (∀ m, n ≤ m → Rest.states Threads.apply (run ms) f m =
        Rest.states Threads.apply (run ms) f n) ∧
      (Rest.states Threads.apply (run ms) f n).AtRest ∧
      ((Rest.states Threads.apply (run ms) f n).loop = .stopped ∨
        (Rest.states Threads.apply (run ms) f n).AllDrained) := by
  obtain ⟨n, hrest, hawake, hatrest⟩ := (steady_run ms).rests hf
  refine ⟨n, hrest, hatrest, or_iff_not_imp_left.mpr fun hrun => ?_⟩
  exact hawake.allDrained (hatrest.quiet hrun)

/-- A fair schedule: the loop, the bridge, the notifications and the tasks take turns, and every task
comes round again and again. -/
def turns (k : ℕ) : Move V :=
  if k % 4 = 0 then .complete (Nat.unpair (k / 4)).1
  else if k % 4 = 1 then .loop default
  else if k % 4 = 2 then .bridge
  else .notify

theorem Fair.turns : Fair (turns : ℕ → Move V) where
  internal k := by
    unfold Threads.turns
    split
    · trivial
    · split
      · trivial
      · split <;> trivial
  loop n := ⟨4 * n + 1, by omega, default, by
    rw [Threads.turns, if_neg (by omega), if_pos (by omega)]⟩
  bridge n := ⟨4 * n + 2, by omega, by
    rw [Threads.turns, if_neg (by omega), if_neg (by omega), if_pos (by omega)]⟩
  tasks id n := by
    have hle := Nat.right_le_pair id n
    refine ⟨4 * Nat.pair id n, by omega, ?_⟩
    rw [Threads.turns, if_pos (Nat.mul_mod_right 4 _), Nat.mul_div_cancel_left _ (by decide),
      Nat.unpair_pair]
  notify n := ⟨4 * n + 3, by omega, by
    rw [Threads.turns, if_neg (by omega), if_neg (by omega), if_neg (by omega)]⟩

open Sample in
/-- Two sources, a node that adds them and a sink. One source is sent a value over the bridge, the
other in a command, and the handle of the subgraph is dropped. -/
def sumAndDrop : List (Move ℕ) :=
  [.merge (SubgraphBuilder.ofList [node .source 0 [], node .source 1 [], node .compute 2 [0, 1],
    node .sink 3 [2]]) 0, .send (nodeId 0) 7, .updateSource (nodeId 1) 5,
    .dropHandle [nodeId 0, nodeId 1, nodeId 2, nodeId 3]]

theorem quiesces_sumAndDrop :
    ∃ n, (∀ m, n ≤ m → Rest.states Threads.apply (run sumAndDrop) turns m =
        Rest.states Threads.apply (run sumAndDrop) turns n) ∧
      (Rest.states Threads.apply (run sumAndDrop) turns n).AtRest ∧
      ((Rest.states Threads.apply (run sumAndDrop) turns n).loop = .stopped ∨
        (Rest.states Threads.apply (run sumAndDrop) turns n).AllDrained) :=
  quiesces sumAndDrop .turns

end Threads

end ReactiveGraph
