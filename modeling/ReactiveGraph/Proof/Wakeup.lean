import Mathlib.Tactic.Abel
import ReactiveGraph.Model.Threads
import ReactiveGraph.Proof.AsyncManager
import ReactiveGraph.Proof.Cycle
import ReactiveGraph.Proof.Merge
import ReactiveGraph.Proof.World

/-!
# No lost wake-up

The loop sleeps in `recv` on the command channel, and what it is to process arrives on two other
channels. So each value must be followed by something that wakes the loop: the bridge's
`SourceReady`, a task's `AsyncComplete`, or the `SourceUpdate` that carried the value. `Awake` is
the invariant that says so. **A value that is waiting in a channel is never alone**: there is a
waking command under way, or a party that owes one, or the loop itself is at a point from which it
comes to that channel before it sleeps again.

The two channels are drained at different points of a cycle, and a waking command may be consumed
long before, or by an earlier cycle than, the value it was sent for; this is why the last case
speaks of the point where the loop is, and why there is one such condition for each channel.

**The order of two sends is the whole matter.** The bridge and the tasks send the value first and
the notification second. Were it the other way round, the loop could take the notification, find
nothing, and sleep on a value that comes after; the invariant would fail at the second send, and
nowhere else.

**Conservation** is carried along: what was sent is what was drained and what is under way. With it,
a loop that sleeps on an empty command channel, with no party owing anything, has drained all that
was ever sent (`noLostWakeup`).

It holds in every state of every run, with clients that do as they like. A loop that has been asked
to stop may stop with values waiting, and `Awake` counts it as having come to both channels.
-/

namespace ReactiveGraph

variable {V : Type*}

/-! ## What the manager's operations do to the sends of its tasks -/

namespace AsyncManager

/-- No result is sent or received, no notification paid or owed, and every new task holds the
manager's notifier. -/
structure SameSends (m m' : AsyncManager V) : Prop where
  resultRx : m'.resultRx = m.resultRx
  notifying : m'.runtime.notifying = m.runtime.notifying
  notifier : m'.notifier = m.notifier
  running : ∀ task ∈ m'.runtime.running, task ∈ m.runtime.running ∨ task.notifies = m.notifier

theorem SameSends.refl (m : AsyncManager V) : SameSends m m :=
  ⟨rfl, rfl, rfl, fun _ h => Or.inl h⟩

theorem SameSends.trans {m₁ m₂ m₃ : AsyncManager V} (h : SameSends m₁ m₂)
    (h' : SameSends m₂ m₃) : SameSends m₁ m₃ where
  resultRx := h'.resultRx.trans h.resultRx
  notifying := h'.notifying.trans h.notifying
  notifier := h'.notifier.trans h.notifier
  running task ht := by
    rcases h'.running task ht with ht | ht
    · exact h.running task ht
    · exact Or.inr (ht.trans h.notifier)

theorem SameSends.setState (m : AsyncManager V) (n : NodeId) (state : AsyncNodeState V) :
    SameSends m (m.setState n state) := ⟨rfl, rfl, rfl, fun _ h => Or.inl h⟩

theorem SameSends.setGroup (m : AsyncManager V) (gid : ℕ) (group : ConcurrencyGroupState V) :
    SameSends m (m.setGroup gid group) := ⟨rfl, rfl, rfl, fun _ h => Or.inl h⟩

theorem SameSends.start (m : AsyncManager V) (n : NodeId) (f : V) (d : Option ℕ) :
    SameSends m (m.start n f d) := by
  have h : SameSends m { m with runtime := m.runtime.spawn n f d m.notifier } := by
    refine ⟨rfl, rfl, rfl, fun task ht => ?_⟩
    rcases List.mem_append.mp ht with ht | ht
    · exact Or.inl ht
    · exact Or.inr (by rw [List.mem_singleton.mp ht])
  unfold AsyncManager.start
  split
  · exact h.trans (.setState _ _ _)
  · exact h

theorem SameSends.startWithin (m : AsyncManager V) (n : NodeId) (f : V) (d : Option ℕ) :
    SameSends m (m.startWithin n f d) := by
  obtain ⟨-, h⟩ | ⟨gid, group, -, -, h⟩ | ⟨gid, group, -, -, h⟩ := m.startWithin_cases n f d
  · rw [h]
    exact .start m n f d
  · rw [h]
    exact (SameSends.setGroup m gid _).trans (.start _ n f d)
  · rw [h]
    exact .setGroup m gid _

theorem SameSends.releaseSlot (m : AsyncManager V) (gid : ℕ) : SameSends m (m.releaseSlot gid) := by
  unfold AsyncManager.releaseSlot
  split
  · exact .setGroup m gid _
  · exact .refl m

theorem SameSends.cancelExisting (m : AsyncManager V) (n : NodeId) (state : AsyncNodeState V) :
    SameSends m (m.cancelExisting n state) := by
  unfold AsyncManager.cancelExisting
  split
  · next handle _ =>
    have h : SameSends m ({ m with runtime := m.runtime.abort handle }.setState n
        { state with inFlight := none }) :=
      ⟨rfl, rfl, rfl, fun _ ht => Or.inl (List.mem_of_mem_filter ht)⟩
    simp only
    split
    · exact h.trans (.releaseSlot _ _)
    · exact h
  · exact .refl m

theorem SameSends.spawn (m : AsyncManager V) (n : NodeId) (f : V) (policy : AsyncPolicy)
    (groupId : Option ℕ) : SameSends m (m.spawn n f policy groupId) := by
  have hrec : SameSends m (m.record n policy groupId) := .setState m n _
  by_cases hc : (m.stateOr n policy groupId).policy.cancels
  · obtain ⟨d, h⟩ := spawn_of_cancels (f := f) hc
    rw [h]
    exact (hrec.trans (.cancelExisting _ _ _)).trans (.startWithin _ _ _ _)
  · rw [spawn_of_queue (AsyncPolicy.eq_queue_of_not_cancels hc)]
    split
    · exact hrec.trans (.setState _ _ _)
    · exact hrec.trans (.startWithin _ _ _ _)

theorem SameSends.settleGroup (m : AsyncManager V) (g : Option ℕ) :
    SameSends m (m.settleGroup g) := by
  cases g with
  | none => exact .refl m
  | some gid =>
    exact (SameSends.releaseSlot m gid).trans <|
      trySpawnFromGroupQueue_induction (P := SameSends (m.releaseSlot gid))
        (fun m' _ _ _ _ h _ _ =>
          h.trans ((SameSends.setGroup m' gid _).trans (.start _ _ _ _))) (.refl _)

theorem SameSends.processCompletion (m : AsyncManager V) (n : NodeId) :
    SameSends m (m.processCompletion n) := by
  cases hs : m.nodeStates.get n with
  | none => rw [processCompletion_of_none hs]; exact .refl m
  | some state =>
    rw [processCompletion_of_get hs]
    have h : SameSends m ((m.setState n state.settle.1).settleGroup state.groupId) :=
      (SameSends.setState m n _).trans (.settleGroup _ _)
    split
    · exact h.trans (.startWithin _ _ _ _)
    · exact h

end AsyncManager

/-! ## What a command does to the channels -/

/-- The commands that make the loop run a cycle. A merge does not: what it computes it has computed
on activation. -/
def Command.wakes : Command V → Bool
  | .sourceUpdate _ _ | .asyncComplete | .sourceReady => true
  | .merge _ _ | .remove _ | .shutdown => false

/-- The value a command carries to the source channel. -/
def Command.values : Command V → List (NodeId × V)
  | .sourceUpdate id value => [(id, value)]
  | _ => []

/-- A command that carries a value wakes. -/
theorem Command.wakes_of_values {c : Command V} (h : c.values ≠ []) : c.wakes := by
  cases c with
  | sourceUpdate id value => rfl
  | merge | remove | asyncComplete | sourceReady | shutdown => exact absurd rfl h

namespace Engine

variable {e e' : Engine V}

/-- Nothing has happened to the channels the engine reads, and what it has sent has gone into the
bridge. -/
structure SameChannels (e e' : Engine V) : Prop where
  sourceRx : e'.graph.sourceRx = e.graph.sourceRx
  bridge : e.graph.bridge.isSome → e'.graph.bridge.isSome
  asyncManager : e'.asyncManager = e.asyncManager

theorem SameChannels.refl (e : Engine V) : SameChannels e e := ⟨rfl, id, rfl⟩

theorem SameChannels.trans {e₁ e₂ e₃ : Engine V} (h : SameChannels e₁ e₂)
    (h' : SameChannels e₂ e₃) : SameChannels e₁ e₃ :=
  ⟨h'.sourceRx.trans h.sourceRx, h'.bridge ∘ h.bridge, h'.asyncManager.trans h.asyncManager⟩

theorem Shrinks.sameChannels (h : Shrinks e e') : SameChannels e e' :=
  ⟨h.sourceRx, fun hb => by rwa [h.bridge], h.asyncManager⟩

theorem sameChannels_registerAll (e : Engine V) (descs : List (NodeDescriptor V)) :
    SameChannels e (e.registerAll descs) :=
  ⟨(graph_registerAll e descs).2.1, fun hb => by rwa [(graph_registerAll e descs).2.2], rfl⟩

/-- With a bridge in place, that is where callbacks send. -/
theorem sameChannels_invokeActivate (hb : e.graph.bridge.isSome) (id : NodeId) :
    SameChannels e (e.invokeActivate id) := by
  unfold invokeActivate
  split
  · next values _ =>
    have h := Graph.foldl_sendSource_induction (g := e.graph) (n := id)
      (P := fun g => g.sourceRx = e.graph.sourceRx ∧ g.bridge.isSome) (fun g value hg => ?_) values
      ⟨rfl, hb⟩
    · exact ⟨h.1, fun _ => h.2, rfl⟩
    · obtain ⟨waiting, hw⟩ := Option.isSome_iff_exists.mp hg.2
      simp only [Graph.sendSource, hw]
      exact ⟨hg.1, rfl⟩
  · exact .refl e

theorem sameChannels_initialCompute (e : Engine V) (id : NodeId) :
    SameChannels e (e.initialCompute id) := by
  unfold initialCompute
  split
  · split
    · simp only
      split <;> exact ⟨rfl, fun h => h, rfl⟩
    · exact .refl e
  · exact .refl e

theorem sameChannels_finishActivation (hb : e.graph.bridge.isSome) (id : NodeId)
    (kind : NodeKind) : SameChannels e (e.finishActivation id kind) := by
  cases kind with
  | source => exact sameChannels_invokeActivate hb id
  | compute => exact sameChannels_initialCompute e id
  | sink => exact .refl e
  | asyncCompute => exact .refl e

theorem sameChannels_activate (hb : e.graph.bridge.isSome) (id : NodeId) :
    SameChannels e (e.activate id) :=
  (activateNode_induction (P := SameChannels e)
    (fun _ _ _ h _ _ => ⟨h.sourceRx, h.bridge, h.asyncManager⟩)
    (fun _ id entry h _ _ => h.trans (sameChannels_finishActivation (h.bridge hb) id entry.kind))
    _ id (.refl e)).1

theorem sameChannels_activateSinks (hb : e.graph.bridge.isSome) (ids : List NodeId) :
    SameChannels e (ids.foldl activateIfSink e) := by
  induction ids generalizing e with
  | nil => exact .refl e
  | cons id ids ih =>
    have hd : SameChannels e e.drainPendingRemovals :=
      (shrinks_drainPendingRemovals e).sameChannels
    have h : SameChannels e (e.activateIfSink id) := by
      unfold activateIfSink
      split
      · split
        · exact hd.trans (sameChannels_activate (hd.bridge hb) id)
        · exact .refl e
      · exact .refl e
    exact h.trans (ih (h.bridge hb))

end Engine

/-- **What processing a command does to the channels**: the value it carries, if it carries one,
goes to the source channel, and it sets `hasUpdates` if it wakes. All that the invariant needs to
know of the engine. -/
theorem EventLoop.handle_channels (s : Iteration V) (hb : s.engine.graph.bridge.isSome)
    (c : Command V) :
    (handle s c).engine.graph.sourceRx = s.engine.graph.sourceRx ++ c.values ∧
      (handle s c).engine.graph.bridge.isSome ∧
      (handle s c).engine.asyncManager = s.engine.asyncManager ∧
      (handle s c).hasUpdates = (s.hasUpdates || c.wakes) := by
  -- A command without a value leaves the channels as they are.
  have silent : ∀ e', Engine.SameChannels s.engine e' →
      e'.graph.sourceRx = s.engine.graph.sourceRx ++ [] ∧ e'.graph.bridge.isSome ∧
        e'.asyncManager = s.engine.asyncManager := fun e' h =>
    ⟨by rw [h.sourceRx, List.append_nil], h.bridge hb, h.asyncManager⟩
  cases c with
  | sourceUpdate id value => exact ⟨rfl, hb, rfl, (Bool.or_true _).symm⟩
  | merge subgraph reply =>
    have hreg := Engine.sameChannels_registerAll s.engine subgraph.descriptors
    obtain ⟨h1, h2, h3⟩ := silent _
      (hreg.trans (Engine.sameChannels_activateSinks (hreg.bridge hb) subgraph.nodeIds))
    exact ⟨h1, h2, h3, (Bool.or_false _).symm⟩
  | remove nodeIds =>
    obtain ⟨h1, h2, h3⟩ := silent _ (Engine.shrinks_release s.engine nodeIds).sameChannels
    exact ⟨h1, h2, h3, (Bool.or_false _).symm⟩
  | asyncComplete =>
    obtain ⟨h1, h2, h3⟩ := silent _ (.refl _)
    exact ⟨h1, h2, h3, (Bool.or_true _).symm⟩
  | sourceReady =>
    obtain ⟨h1, h2, h3⟩ := silent _ (.refl _)
    exact ⟨h1, h2, h3, (Bool.or_true _).symm⟩
  | shutdown =>
    obtain ⟨h1, h2, h3⟩ := silent _ (.refl _)
    exact ⟨h1, h2, h3, (Bool.or_false _).symm⟩

/-! ## The invariant -/

/-- The commands the loop has collected and not processed. -/
def LoopPc.collected : LoopPc V → List (Command V)
  | .collecting commands | .processing commands _ _ | .sending _ _ commands _ _ => commands
  | _ => []

@[simp] theorem LoopPc.collected_collecting (commands : List (Command V)) :
    (collecting commands).collected = commands := rfl

/-- Whether a cycle is to follow the commands that are being processed, as far as is known. -/
def LoopPc.hasUpdates : LoopPc V → Bool
  | .processing _ hasUpdates _ | .sending _ _ _ hasUpdates _ => hasUpdates
  | _ => false

/-- The loop gets to the source channel before it sleeps again, or has stopped. Past the drain of
the sources it does not, even if a cycle is still under way. -/
def LoopPc.ComesToSources (pc : LoopPc V) : Prop :=
  match pc with
  | .drainingSources _ _ | .stopped => True
  | pc => pc.hasUpdates ∨ ∃ c ∈ pc.collected, c.wakes

/-- The loop gets to the result channel before it sleeps again, or has stopped. -/
def LoopPc.ComesToResults (pc : LoopPc V) : Prop :=
  match pc with
  | .drainingSources _ _ | .drainingResults _ _ _ | .stopped => True
  | pc => pc.hasUpdates ∨ ∃ c ∈ pc.collected, c.wakes

/-- What the bridge holds in its hand. -/
def BridgePc.held : BridgePc V → List (NodeId × V)
  | .forwarding msg => [msg]
  | _ => []

namespace Threads

variable {t : Threads V}

/-- A waking command is waiting in the command channel. -/
def Waking (t : Threads V) : Prop := ∃ c ∈ t.commands, c.wakes

/-- The values under way: sent, and not drained. A value is in one of six places. -/
def inFlight (t : Threads V) : Multiset (NodeId × V) :=
  ↑(t.commands.flatMap Command.values) + ↑(t.loop.collected.flatMap Command.values) +
    ↑t.bridgeRx + ↑t.bridge.held + ↑t.engine.graph.sourceRx + ↑t.engine.asyncManager.resultRx

structure Awake (t : Threads V) : Prop where
  bridge : t.engine.graph.bridge = some []
  notifier : t.engine.asyncManager.notifier
  notifies : ∀ task ∈ t.engine.asyncManager.runtime.running, task.notifies
  sources : t.engine.graph.sourceRx ≠ [] →
    t.Waking ∨ t.bridge = .notifying ∨ t.loop.ComesToSources
  results : t.engine.asyncManager.resultRx ≠ [] →
    t.Waking ∨ 0 < t.engine.asyncManager.runtime.notifying ∨ t.loop.ComesToResults
  conserved : t.sent = t.drained + t.inFlight

theorem Awake.init : Awake (init : Threads V) where
  bridge := rfl
  notifier := rfl
  notifies _ h := absurd h List.not_mem_nil
  sources h := absurd rfl h
  results h := absurd rfl h
  conserved := rfl

/-! ## The steps of the other parties -/

theorem Waking.append {commands : List (Command V)} (h : t.Waking) (c : Command V)
    (hc : commands = t.commands ++ [c]) : ∃ c ∈ commands, c.wakes := by
  obtain ⟨c', hc', hw⟩ := h
  exact ⟨c', hc ▸ List.mem_append_left _ hc', hw⟩

/-- A client sends a command; the value that goes with it counts as sent. -/
theorem Awake.post (h : t.Awake) (c : Command V) {sent : Multiset (NodeId × V)}
    (hsent : sent = ↑c.values + t.sent) : Awake { t.post c with sent := sent } where
  bridge := h.bridge
  notifier := h.notifier
  notifies := h.notifies
  sources hne := (h.sources hne).imp_left fun hw => hw.append c rfl
  results hne := (h.results hne).imp_left fun hw => hw.append c rfl
  conserved := by
    simp only [hsent, h.conserved, inFlight, Threads.post, List.flatMap_append, ← Multiset.coe_add,
      List.flatMap_singleton]
    abel

/-- A `Sender` sends. -/
theorem Awake.send (h : t.Awake) (msg : NodeId × V) :
    Awake { t with bridgeRx := t.bridgeRx ++ [msg], sent := msg ::ₘ t.sent } where
  bridge := h.bridge
  notifier := h.notifier
  notifies := h.notifies
  sources := h.sources
  results := h.results
  conserved := by
    simp only [h.conserved, inFlight, ← Multiset.coe_add, ← Multiset.singleton_add,
      Multiset.coe_singleton]
    abel

/-- The bridge forwards a value before it sends the notification, and owes it in between. That it
owes it is its being at `notifying`. -/
theorem Awake.bridgeStep (h : t.Awake) : t.bridgeStep.Awake := by
  unfold Threads.bridgeStep
  split
  · next hpc =>
    split
    · next msg bridgeRx hrx =>
      refine ⟨h.bridge, h.notifier, h.notifies, fun hne => ?_, h.results, ?_⟩
      · rcases h.sources hne with hw | hn | hl
        · exact Or.inl hw
        · rw [hpc] at hn
          exact absurd hn (by simp)
        · exact Or.inr (Or.inr hl)
      · simp only [h.conserved, inFlight, hrx, hpc, BridgePc.held, ← Multiset.cons_coe,
          ← Multiset.singleton_add, Multiset.coe_nil]
        abel
    · exact h
  · next msg hpc =>
    refine ⟨h.bridge, h.notifier, h.notifies, fun _ => Or.inr (Or.inl rfl), h.results, ?_⟩
    simp only [h.conserved, inFlight, hpc, BridgePc.held, ← Multiset.coe_add, Multiset.coe_nil]
    abel
  · next hpc =>
    refine ⟨h.bridge, h.notifier, h.notifies, fun hne => Or.inl ⟨.sourceReady, by simp, rfl⟩,
      fun hne => (h.results hne).imp_left fun hw => hw.append .sourceReady rfl, ?_⟩
    simp only [h.conserved, inFlight, hpc, BridgePc.held, List.flatMap_append, ← Multiset.coe_add,
      List.flatMap_singleton, Command.values, Multiset.coe_nil]
    abel

/-- A task sends its result first, and since it holds the notifier it owes a notification then.
Every task of a started engine holds one, since the notifier is set before the first is started. -/
theorem Awake.completeStep (h : t.Awake) (id : TaskId) : (t.completeStep id).Awake := by
  unfold Threads.completeStep
  cases hf : t.engine.asyncManager.runtime.find id with
  | none =>
    have heq : t.engine.asyncManager.complete id = t.engine.asyncManager := by
      rw [AsyncManager.complete, hf]
    rw [heq]
    simpa only [Option.elim, zero_add] using h
  | some task =>
    have heq : t.engine.asyncManager.complete id = { t.engine.asyncManager with
        runtime := t.engine.asyncManager.runtime.finish task
        resultRx := t.engine.asyncManager.resultRx ++ [(task.nodeId, task.future)] } := by
      rw [AsyncManager.complete, hf]
    have hnot := h.notifies task (Runtime.find_some hf).1
    rw [heq]
    refine ⟨h.bridge, h.notifier, fun task ht => h.notifies task (List.mem_of_mem_filter ht),
      h.sources, fun _ => Or.inr (Or.inl ?_), ?_⟩
    · simp only [Runtime.finish, hnot, if_true]
      exact Nat.succ_pos _
    · simp only [h.conserved, inFlight, Option.elim, ← Multiset.coe_add, Multiset.coe_singleton]
      abel

theorem Awake.notifyStep (h : t.Awake) : t.notifyStep.Awake := by
  unfold Threads.notifyStep
  simp only
  split
  · refine ⟨h.bridge, h.notifier, h.notifies,
      fun hne => (h.sources hne).imp_left fun hw => hw.append .asyncComplete rfl,
      fun _ => Or.inl ⟨.asyncComplete, by simp, rfl⟩, ?_⟩
    simp only [h.conserved, inFlight, List.flatMap_append, ← Multiset.coe_add,
      List.flatMap_singleton, Command.values, Multiset.coe_nil, add_zero]
  · exact h

/-! ## The steps of the loop -/

/-- The loop moves on with the commands it has, and away from no channel that has something. -/
theorem Awake.goto (h : t.Awake) {pc pc' : LoopPc V} (hpc : t.loop = pc)
    (hs : t.engine.graph.sourceRx ≠ [] → pc.ComesToSources → pc'.ComesToSources)
    (hr : t.engine.asyncManager.resultRx ≠ [] → pc.ComesToResults → pc'.ComesToResults)
    (hc : pc'.collected = pc.collected) : Awake { t with loop := pc' } where
  bridge := h.bridge
  notifier := h.notifier
  notifies := h.notifies
  sources hne := (h.sources hne).imp_right (Or.imp_right (hpc ▸ hs hne))
  results hne := (h.results hne).imp_right (Or.imp_right (hpc ▸ hr hne))
  conserved := by simp only [h.conserved, inFlight, hc, hpc]

/-- The engine does something that has nothing to do with the channels. -/
theorem Awake.setEngine (h : t.Awake) {e : Engine V} (hb : e.graph.bridge = some [])
    (hrx : e.graph.sourceRx = t.engine.graph.sourceRx)
    (hm : t.engine.asyncManager.SameSends e.asyncManager) : Awake { t with engine := e } where
  bridge := hb
  notifier := hm.notifier.trans h.notifier
  notifies task ht := (hm.running task ht).elim (h.notifies task) fun heq => heq.trans h.notifier
  sources hne := h.sources fun heq => hne (hrx.trans heq)
  results hne :=
    (h.results fun heq => hne (hm.resultRx.trans heq)).imp_right
      (Or.imp_left fun hlt => hm.notifying.symm ▸ hlt)
  conserved := by simp only [h.conserved, inFlight, hrx, hm.resultRx]

/-- Processing a command: what it has to say about updates is in `hasUpdates` afterwards, so a
waking command that is gone has left its mark. -/
theorem Awake.process (h : t.Awake) {c : Command V} {commands : List (Command V)}
    {hasUpdates shouldShutdown : Bool}
    (hpc : t.loop = .processing (c :: commands) hasUpdates shouldShutdown) :
    (t.process c commands hasUpdates shouldShutdown).Awake := by
  obtain ⟨hrx, -, hm, hu⟩ := EventLoop.handle_channels ⟨t.engine, [], hasUpdates, shouldShutdown⟩
    (by rw [h.bridge]; rfl) c
  simp only at hrx hm hu
  have hcomes : (hasUpdates ∨ ∃ c' ∈ c :: commands, c'.wakes) →
      (hasUpdates || c.wakes) ∨ ∃ c' ∈ commands, c'.wakes := by
    simp only [List.mem_cons, exists_eq_or_imp, Bool.or_eq_true, or_assoc, imp_self]
  refine ⟨rfl, by simpa [Threads.process, hm] using h.notifier,
    by simpa [Threads.process, hm] using h.notifies, fun hne => ?_, fun hne => ?_, ?_⟩
  · have hgoal : (t.process c commands hasUpdates shouldShutdown).loop.ComesToSources ↔
        (hasUpdates || c.wakes) ∨ ∃ c' ∈ commands, c'.wakes := by
      rw [← hu]
      rfl
    -- Either the value was waiting before, or this command brought it and wakes for it.
    by_cases hv : c.values = []
    · have hne' : t.engine.graph.sourceRx ≠ [] := fun heq => hne (by
        simp only [Threads.process, hrx, heq, hv, List.append_nil])
      refine (h.sources hne').imp_right (Or.imp_right fun hl => hgoal.mpr (hcomes ?_))
      rwa [hpc] at hl
    · exact Or.inr (Or.inr (hgoal.mpr (Or.inl (by simp [Command.wakes_of_values hv]))))
  · have hgoal : (t.process c commands hasUpdates shouldShutdown).loop.ComesToResults ↔
        (hasUpdates || c.wakes) ∨ ∃ c' ∈ commands, c'.wakes := by
      rw [← hu]
      rfl
    have hasync : (t.process c commands hasUpdates shouldShutdown).engine.asyncManager =
        t.engine.asyncManager := hm
    rw [hasync] at hne ⊢
    refine (h.results hne).imp_right (Or.imp_right fun hl => hgoal.mpr (hcomes ?_))
    rwa [hpc] at hl
  · simp only [h.conserved, inFlight, Threads.process, hpc, LoopPc.collected, hrx, hm,
      List.flatMap_cons, ← Multiset.coe_add]
    abel

/-- The loop takes a command out of the channel, first in `recv` and then in `try_recv`: it has
collected the waking ones now. -/
theorem Awake.collect (h : t.Awake) {collected : List (Command V)}
    (hpc : t.loop = .collecting collected ∨ t.loop = .blocked ∧ collected = [])
    {c : Command V} {commands : List (Command V)} (hcs : t.commands = c :: commands) :
    Awake { t with commands := commands, loop := .collecting (collected ++ [c]) } := by
  have hcomes : ∀ {Q : Prop}, (t.Waking ∨ Q ∨ false ∨ ∃ c' ∈ collected, c'.wakes) →
      (∃ c' ∈ commands, c'.wakes) ∨ Q ∨ false ∨ ∃ c' ∈ collected ++ [c], c'.wakes := by
    rintro Q (⟨c', hc', hw⟩ | hQ | hl | ⟨c', hc', hw⟩)
    · rw [hcs, List.mem_cons] at hc'
      rcases hc' with rfl | hc'
      · exact Or.inr (Or.inr (Or.inr ⟨c', by simp, hw⟩))
      · exact Or.inl ⟨c', hc', hw⟩
    · exact Or.inr (Or.inl hQ)
    · exact absurd hl (by simp)
    · exact Or.inr (Or.inr (Or.inr ⟨c', List.mem_append_left _ hc', hw⟩))
  refine ⟨h.bridge, h.notifier, h.notifies, fun hne => ?_, fun hne => ?_, ?_⟩
  · refine hcomes ((h.sources hne).imp_right (Or.imp_right fun hl => ?_))
    rcases hpc with hpc | ⟨hpc, rfl⟩ <;> rw [hpc] at hl <;> exact hl
  · refine hcomes ((h.results hne).imp_right (Or.imp_right fun hl => ?_))
    rcases hpc with hpc | ⟨hpc, rfl⟩ <;> rw [hpc] at hl <;> exact hl
  · have hcol : t.loop.collected = collected := by
      rcases hpc with hpc | ⟨hpc, rfl⟩ <;> rw [hpc] <;> rfl
    simp only [h.conserved, inFlight, hcs, hcol, LoopPc.collected_collecting, List.flatMap_cons,
      List.flatMap_append, ← Multiset.coe_add]
    abel

/-- A drain takes one value out of the source channel. -/
theorem Awake.drainSource (h : t.Awake) {updated : List NodeId} {shouldShutdown : Bool}
    (hpc : t.loop = .drainingSources updated shouldShutdown) {msg : NodeId × V}
    {sourceRx : List (NodeId × V)} (hrx : t.engine.graph.sourceRx = msg :: sourceRx)
    (store : ValueStore V) (updated' : List NodeId) :
    Awake { t with
      engine :=
        { t.engine with
          graph := { t.engine.graph with sourceRx := sourceRx, valueStore := store } }
      drained := msg ::ₘ t.drained
      loop := .drainingSources updated' shouldShutdown } where
  bridge := h.bridge
  notifier := h.notifier
  notifies := h.notifies
  sources _ := Or.inr (Or.inr trivial)
  results _ := Or.inr (Or.inr trivial)
  conserved := by
    simp only [h.conserved, inFlight, hpc, hrx, LoopPc.collected, ← Multiset.cons_coe,
      ← Multiset.singleton_add]
    abel

/-- A drain takes one result out of the result channel. -/
theorem Awake.drainResult (h : t.Awake) {updated : List NodeId} {results : List (NodeId × V)}
    {shouldShutdown : Bool} (hpc : t.loop = .drainingResults updated results shouldShutdown)
    {result : NodeId × V} {resultRx : List (NodeId × V)}
    (hrx : t.engine.asyncManager.resultRx = result :: resultRx) :
    Awake { t with
      engine :=
        { t.engine with asyncManager := { t.engine.asyncManager with resultRx := resultRx } }
      drained := result ::ₘ t.drained
      loop := .drainingResults updated (results ++ [result]) shouldShutdown } where
  bridge := h.bridge
  notifier := h.notifier
  notifies := h.notifies
  sources hne := (h.sources hne).imp_right (Or.imp_right fun hl => by rwa [hpc] at hl)
  results _ := Or.inr (Or.inr trivial)
  conserved := by
    simp only [h.conserved, inFlight, hpc, hrx, LoopPc.collected, ← Multiset.cons_coe,
      ← Multiset.singleton_add]
    abel

/-- Where the loop has nothing collected and no drain before it. -/
theorem not_comes : ¬ ((false : Bool) ∨ ∃ c ∈ ([] : List (Command V)), c.wakes) := by simp

/-- At the end of an iteration the loop comes to neither channel any more, unless it has stopped:
whoever has sent since the drains still owes a notification. -/
theorem Awake.finish (h : t.Awake) {pc : LoopPc V} (hpc : t.loop = pc)
    (hs : ¬ pc.ComesToSources) (hr : ¬ pc.ComesToResults) (hc : pc.collected = [])
    (shouldShutdown : Bool) : Awake { t with loop := nextPc shouldShutdown } := by
  refine h.goto hpc (fun _ h => absurd h hs) (fun _ h => absurd h hr) ?_
  rw [hc]
  cases shouldShutdown <;> rfl

/-- Executing the dirty nodes touches no channel: what is to be spawned is spawned later. -/
theorem sameChannels_execute (e : Engine V) (sorted : List NodeId) :
    Engine.SameChannels e (e.executeSequentialWithAsync sorted).engine ∧
      (e.executeSequentialWithAsync sorted).engine.graph.bridge = e.graph.bridge := by
  rw [(Engine.executeSequentialWithAsync_eq e sorted).1]
  exact ⟨⟨rfl, fun h => h, rfl⟩, rfl⟩

theorem Awake.execute (h : t.Awake) (o : CycleOrder) {updated : List NodeId}
    {results : List (NodeId × V)} {shouldShutdown : Bool}
    (hpc : t.loop = .completing [] updated results shouldShutdown) :
    (t.execute o updated results shouldShutdown).Awake := by
  have hstore : Awake { t with
      engine := t.engine.setStore (Engine.receive t.engine.graph.valueStore results) } :=
    h.setEngine h.bridge rfl (.refl _)
  unfold Threads.execute
  simp only
  split
  · exact hstore.finish hpc not_comes not_comes rfl shouldShutdown
  · obtain ⟨hsame, hb⟩ := sameChannels_execute
      (t.engine.setStore (Engine.receive t.engine.graph.valueStore results))
      (t.engine.topology.topoSort o.dirty
        (t.engine.topology.dirtySet o.sources (updated ++ results.map Prod.fst).toFinset))
    exact (hstore.setEngine (hb.trans h.bridge) hsame.sourceRx
      (hsame.asyncManager ▸ .refl _)).goto hpc (fun _ h => h) (fun _ h => h) rfl

theorem Awake.loopStep (h : t.Awake) (o : CycleOrder) : (t.loopStep o).Awake := by
  unfold Threads.loopStep
  split
  · next hpc =>
    split
    · next c commands hcs => exact h.collect (Or.inr ⟨hpc, rfl⟩) hcs
    · exact h
  · next collected hpc =>
    split
    · next c commands hcs => exact h.collect (Or.inl hpc) hcs
    · exact h.goto hpc (fun _ h => h) (fun _ h => h) rfl
  · next hpc => exact h.process hpc
  · next hpc =>
    -- removals put off until now touch no channel
    have hd := Engine.shrinks_drainPendingRemovals t.engine
    have h₁ := h.setEngine (hd.bridge.trans h.bridge) hd.sourceRx (hd.asyncManager ▸ .refl _)
    exact h₁.goto hpc (fun _ _ => trivial) (fun _ _ => trivial) rfl
  · next hpc => exact h.finish hpc not_comes not_comes rfl _
  · next msg outbox replies commands hasUpdates shouldShutdown hpc =>
    exact (h.send msg).goto hpc (fun _ h => h) (fun _ h => h) rfl
  · next replies commands hasUpdates shouldShutdown hpc =>
    have h₁ : Awake { t with replies := t.replies ++ replies } :=
      ⟨h.bridge, h.notifier, h.notifies, h.sources, h.results, h.conserved⟩
    exact h₁.goto hpc (fun _ h => h) (fun _ h => h) rfl
  · next updated shouldShutdown hpc =>
    split
    · next msg sourceRx hrx => exact h.drainSource hpc hrx _ _
    · next hrx =>
      exact h.goto hpc (fun hne => absurd hrx hne) (fun _ _ => trivial) rfl
  · next updated results shouldShutdown hpc =>
    split
    · next result resultRx hrx => exact h.drainResult hpc hrx
    · next hrx => exact h.goto hpc (fun _ h => h) (fun hne => absurd hrx hne) rfl
  · next id completed updated results shouldShutdown hpc =>
    have h₁ := h.setEngine (e := { t.engine with
      asyncManager := t.engine.asyncManager.processCompletion id }) h.bridge rfl
      (.processCompletion _ id)
    exact h₁.goto hpc (fun _ h => h) (fun _ h => h) rfl
  · next hpc => exact h.execute o hpc
  · next s spawns metrics shouldShutdown hpc =>
    have h₁ := h.setEngine (e := t.engine.spawnAsyncWork [s]) h.bridge rfl (.spawn _ _ _ _ _)
    exact h₁.goto hpc (fun _ h => h) (fun _ h => h) rfl
  · next metrics shouldShutdown hpc =>
    have h₁ := h.setEngine
      (e := { t.engine with metrics := t.engine.metrics.recordCycle metrics }) h.bridge rfl
      (.refl _)
    exact h₁.finish hpc not_comes not_comes rfl shouldShutdown
  · exact h

theorem Awake.apply (h : t.Awake) (m : Move V) : (t.apply m).Awake := by
  cases m with
  | loop o => exact h.loopStep o
  | bridge => exact h.bridgeStep
  | complete task => exact h.completeStep task
  | notify => exact h.notifyStep
  | send id value => exact h.send (id, value)
  | updateSource id value => exact h.post _ rfl
  | merge subgraph reply => exact h.post _ (zero_add _).symm
  | dropHandle nodeIds =>
    simp only [Threads.apply]
    split
    · exact h
    · exact h.post _ (zero_add _).symm
  | shutdown => exact h.post _ (zero_add _).symm

/-! ## Nothing is lost -/

/-- The loop sleeps on an empty command channel, the bridge on an empty bridge channel, and no task
is between its two sends. A task may still run: it has sent nothing yet. -/
structure Quiet (t : Threads V) : Prop where
  loop : t.loop = .blocked
  commands : t.commands = []
  bridge : t.bridge = .blocked
  bridgeRx : t.bridgeRx = []
  notifying : t.engine.asyncManager.runtime.notifying = 0

/-- Nothing waits in either channel, and what has been sent is what has been drained. -/
structure AllDrained (t : Threads V) : Prop where
  sourceRx : t.engine.graph.sourceRx = []
  resultRx : t.engine.asyncManager.resultRx = []
  drained : t.drained = t.sent

theorem Awake.allDrained (h : t.Awake) (hq : t.Quiet) : t.AllDrained := by
  have hwaking : ¬ t.Waking := by simp [Waking, hq.commands]
  have hsources : t.engine.graph.sourceRx = [] := by
    by_contra hne
    rcases h.sources hne with hw | hn | hl
    · exact hwaking hw
    · exact absurd (hq.bridge.symm.trans hn) (by simp)
    · rw [hq.loop] at hl
      exact not_comes hl
  have hresults : t.engine.asyncManager.resultRx = [] := by
    by_contra hne
    rcases h.results hne with hw | hn | hl
    · exact hwaking hw
    · exact absurd hq.notifying hn.ne'
    · rw [hq.loop] at hl
      exact not_comes hl
  refine ⟨hsources, hresults, ?_⟩
  simp [h.conserved, inFlight, hq.commands, hq.loop, hq.bridgeRx, hq.bridge, hsources, hresults,
    LoopPc.collected, BridgePc.held]

/-- **No lost wake-up.** Whatever the parties do and in whatever order, whenever everyone sleeps
every value that was ever sent has been drained.

It is what `Awake` comes to in a quiet state. There is no hypothesis on the moves: values may be
sent to nodes that were never merged, and are drained all the same. -/
theorem noLostWakeup (ms : List (Move V)) :
    Runs.Always apply (fun t => t.Quiet → t.AllDrained) (init : Threads V) ms :=
  Runs.always_of_step (I := Awake) (fun _ m h => h.apply m) (fun _ h => h.allDrained) .init

open Sample in
/-- A source and a sink are merged, and a value is sent to the source through the bridge, up to the
end of the cycle it wakes the loop for. -/
def wakes : List (Move ℕ) :=
  [.merge (SubgraphBuilder.ofList [node .source 0 [], node .sink 1 [0]]) 0] ++
    List.replicate 6 (.loop default) ++ [.send (nodeId 0) 7, .bridge, .bridge, .bridge] ++
    List.replicate 10 (.loop default)

open Sample in
theorem noLostWakeup_wakes :
    (run wakes).Quiet ∧ (run wakes).sent = {(nodeId 0, 7)} ∧ (run wakes).AllDrained ∧
      emissions (nodeId 1) (run wakes).engine.effects = [[some 7]] := by
  have hquiet : (run wakes).Quiet := ⟨rfl, rfl, rfl, rfl, rfl⟩
  exact ⟨hquiet, by decide +kernel, (noLostWakeup _).last hquiet, by decide +kernel⟩

end Threads

end ReactiveGraph
