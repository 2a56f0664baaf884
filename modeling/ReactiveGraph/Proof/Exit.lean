import ReactiveGraph.Model.Senders
import ReactiveGraph.Proof.Wakeup

/-!
# How the loop ends

The loop's `break` at a failing `recv` is for the time when all senders have been dropped. That time
does not come while the loop runs: the bridge thread has a clone of the command sender and lives as
long as the graph's sender does, and the async manager has another as its notifier. So a loop that
nobody has asked to stop is never left, and once its owners are gone it sleeps for ever.

**What can still wake a loop.** A handle can post a command, and a `Sender` outside the graph a
value, which the bridge announces; a task that still runs announces its result. An abandoned loop is
one without any of these, blocked on an empty channel (`Abandoned`). Then no party can take a step
that changes anything (`Abandoned.stuck`), and in particular the loop does not exit.

`abandoned_exits_iff` is over runs with owners that come and go. The condition is on the drops
alone: the one that leaves nobody must come after a shutdown has been asked for. One direction is by
an invariant, that there is an owner or the loop has been asked. The other says what happens when
the condition fails, and there the run has to come to rest first, for a loop that is still busy is
not yet stuck; that it does come to rest is `Proof/Quiescence.lean`.

- `Asked` and `merges` follow a shutdown and the merges under way through the loop.
- `Kept` is the invariant: the bridge runs as long as the loop does, and who waits for a merge has a
  handle.
- `Gone` is what is left after the last owner, and there is no way back from it.
-/

namespace ReactiveGraph

variable {V : Type*}

/-! ## What a command asks of the loop -/

def Command.isMerge : Command V → Bool
  | .merge _ _ => true
  | _ => false

theorem EventLoop.handle_shouldShutdown (s : Iteration V) (c : Command V) :
    (handle s c).shouldShutdown ↔ s.shouldShutdown ∨ .shutdown = c := by
  cases c <;> simp [handle]

theorem EventLoop.length_replies_handle (s : Iteration V) (c : Command V) :
    (handle s c).replies.length = s.replies.length + if c.isMerge then 1 else 0 := by
  cases c <;> simp [handle, Command.isMerge]

/-- The loop is at a point from which it comes to its end, or has ended: it holds a `Shutdown` or
has handled one in this iteration. -/
def LoopPc.Stops : LoopPc V → Prop
  | .blocked => False
  | .collecting commands => .shutdown ∈ commands
  | .processing commands _ shouldShutdown | .sending _ _ commands _ shouldShutdown =>
    shouldShutdown ∨ .shutdown ∈ commands
  | .drainingSources _ shouldShutdown | .drainingResults _ _ shouldShutdown
  | .completing _ _ _ shouldShutdown | .spawning _ _ shouldShutdown => shouldShutdown
  | .stopped => True

theorem LoopPc.isStopped_of_ne {pc : LoopPc V} (h : pc ≠ .stopped) : pc.isStopped = false := by
  cases pc with
  | stopped => exact absurd rfl h
  | _ => rfl

/-- The replies that the loop has got ready. -/
def LoopPc.replies : LoopPc V → List (ℕ × List NodeId)
  | .sending _ replies _ _ _ => replies
  | _ => []

namespace Threads

@[simp] theorem stops_nextPc (shouldShutdown : Bool) :
    (nextPc shouldShutdown : LoopPc V).Stops ↔ shouldShutdown := by
  cases shouldShutdown <;> simp [nextPc, LoopPc.Stops]

@[simp] theorem collected_nextPc (shouldShutdown : Bool) :
    (nextPc shouldShutdown : LoopPc V).collected = [] := by
  cases shouldShutdown <;> rfl

@[simp] theorem replies_nextPc (shouldShutdown : Bool) :
    (nextPc shouldShutdown : LoopPc V).replies = [] := by
  cases shouldShutdown <;> rfl

/-- A `Shutdown` is on its way, or the loop has seen one. -/
def Asked (t : Threads V) : Prop := .shutdown ∈ t.commands ∨ t.loop.Stops

/-- The merges that are under way: their commands are, or their replies, on the way to the client or
ready in the loop. -/
def merges (t : Threads V) : ℕ :=
  t.commands.countP Command.isMerge + t.loop.collected.countP Command.isMerge +
    t.loop.replies.length + t.replies.length

/-- The loop moves on and takes no command. -/
theorem asked_congr {t t' : Threads V} (hcommands : t'.commands = t.commands)
    (h : t'.loop.Stops ↔ t.loop.Stops) : t'.Asked ↔ t.Asked := by rw [Asked, Asked, hcommands, h]

/-- A shutdown stays asked for until the loop has stopped, and nobody but a client asks for one. One
case for each place the loop can be at. -/
theorem asked_loopStep (t : Threads V) (o : CycleOrder) : (t.loopStep o).Asked ↔ t.Asked := by
  unfold loopStep
  split
  · next hpc =>
    split
    · next hcs =>
      simp only [Asked, hpc, hcs, LoopPc.Stops, List.mem_cons, List.not_mem_nil, or_false]
      exact or_comm
    · exact Iff.rfl
  · next hpc =>
    split
    · next hcs =>
      simp only [Asked, hpc, hcs, LoopPc.Stops, List.mem_cons, List.mem_append, List.not_mem_nil,
        or_false]
      tauto
    · exact asked_congr rfl (by simp [hpc, LoopPc.Stops])
  · next hpc =>
    refine asked_congr rfl ?_
    rw [hpc]
    simp only [process, LoopPc.Stops, EventLoop.handle_shouldShutdown, List.mem_cons, or_assoc]
  · next hpc => exact asked_congr rfl (by simp [hpc, LoopPc.Stops])
  · next hpc =>
    refine asked_congr rfl ((stops_nextPc _).trans ?_)
    simp [hpc, LoopPc.Stops]
  · next hpc => exact asked_congr rfl (by rw [hpc]; exact Iff.rfl)
  · next hpc => exact asked_congr rfl (by rw [hpc]; exact Iff.rfl)
  · next hpc => split <;> exact asked_congr rfl (by rw [hpc]; exact Iff.rfl)
  · next hpc => split <;> exact asked_congr rfl (by rw [hpc]; exact Iff.rfl)
  · next hpc => exact asked_congr rfl (by rw [hpc]; exact Iff.rfl)
  · next hpc =>
    unfold execute
    simp only
    split
    · exact asked_congr rfl ((stops_nextPc _).trans (by rw [hpc]; exact Iff.rfl))
    · exact asked_congr rfl (by rw [hpc]; exact Iff.rfl)
  · next hpc => exact asked_congr rfl (by rw [hpc]; exact Iff.rfl)
  · next hpc => exact asked_congr rfl ((stops_nextPc _).trans (by rw [hpc]; exact Iff.rfl))
  · exact Iff.rfl

theorem merges_congr {t t' : Threads V} (hcommands : t'.commands = t.commands)
    (hcollected : t'.loop.collected = t.loop.collected) (hpc : t'.loop.replies = t.loop.replies)
    (hreplies : t'.replies = t.replies) : t'.merges = t.merges := by
  rw [merges, merges, hcommands, hcollected, hpc, hreplies]

/-- No merge gets lost in the loop: it is in the channel, among the commands collected, or
answered. -/
theorem merges_loopStep (t : Threads V) (o : CycleOrder) : (t.loopStep o).merges = t.merges := by
  unfold loopStep
  split
  · next hpc =>
    split
    · next hcs =>
      simp only [merges, hpc, hcs, LoopPc.collected, LoopPc.replies, List.countP_cons,
        List.countP_nil, List.length_nil]
      omega
    · rfl
  · next hpc =>
    split
    · next hcs =>
      simp only [merges, hpc, hcs, LoopPc.collected, LoopPc.replies, List.countP_cons,
        List.countP_append, List.countP_nil, List.length_nil]
      omega
    · exact merges_congr rfl (by rw [hpc]; rfl) (by rw [hpc]; rfl) rfl
  · next hpc =>
    -- the reply takes the place of the command
    simp only [merges, hpc, process, LoopPc.collected, LoopPc.replies, List.countP_cons,
      List.length_nil, EventLoop.length_replies_handle]
    omega
  · next hpc => exact merges_congr rfl (by rw [hpc]; rfl) (by rw [hpc]; rfl) rfl
  · next hpc =>
    exact merges_congr rfl (by rw [hpc]; exact collected_nextPc _)
      (by rw [hpc]; exact replies_nextPc _) rfl
  · next hpc => exact merges_congr rfl (by rw [hpc]; rfl) (by rw [hpc]; rfl) rfl
  · next hpc =>
    simp only [merges, hpc, LoopPc.collected, LoopPc.replies, List.length_append, List.length_nil]
    omega
  · next hpc => split <;> exact merges_congr rfl (by rw [hpc]; rfl) (by rw [hpc]; rfl) rfl
  · next hpc => split <;> exact merges_congr rfl (by rw [hpc]; rfl) (by rw [hpc]; rfl) rfl
  · next hpc => exact merges_congr rfl (by rw [hpc]; rfl) (by rw [hpc]; rfl) rfl
  · next hpc =>
    unfold execute
    simp only
    split
    · exact merges_congr rfl (by rw [hpc]; exact collected_nextPc _)
        (by rw [hpc]; exact replies_nextPc _) rfl
    · exact merges_congr rfl (by rw [hpc]; rfl) (by rw [hpc]; rfl) rfl
  · next hpc => exact merges_congr rfl (by rw [hpc]; rfl) (by rw [hpc]; rfl) rfl
  · next hpc =>
    exact merges_congr rfl (by rw [hpc]; exact collected_nextPc _)
      (by rw [hpc]; exact replies_nextPc _) rfl
  · rfl

/-- Nobody has asked for anything but what takes a cycle or removes nodes: what the other parties'
moves do to the questions asked here. -/
structure SameAsks (t t' : Threads V) : Prop where
  stopped : t.loop = .stopped → t'.loop = .stopped
  asked : t'.Asked ↔ t.Asked
  merges : t'.merges = t.merges

theorem sameAsks_loopStep (t : Threads V) (o : CycleOrder) : SameAsks t (t.loopStep o) where
  stopped h := by
    rw [loopStep, h]
    exact h
  asked := t.asked_loopStep o
  merges := t.merges_loopStep o

/-- What the other parties do to the loop is to send it commands. -/
theorem SameAsks.of_commands {t t' : Threads V} (extra : List (Command V))
    (hextra : ∀ c ∈ extra, .shutdown ≠ c ∧ c.isMerge = false)
    (hcommands : t'.commands = t.commands ++ extra) (hpc : t'.loop = t.loop)
    (hreplies : t'.replies = t.replies) : SameAsks t t' where
  stopped h := hpc.trans h
  asked := by
    rw [Asked, Asked, hcommands, hpc, List.mem_append,
      or_iff_left fun hmem => (hextra _ hmem).1 rfl]
  merges := by
    have hcount : extra.countP Command.isMerge = 0 :=
      List.countP_eq_zero.mpr fun c hc => Bool.eq_false_iff.mp (hextra c hc).2
    rw [Threads.merges, Threads.merges, hcommands, hpc, hreplies, List.countP_append, hcount,
      add_zero]

theorem SameAsks.of_same {t t' : Threads V} (hcommands : t'.commands = t.commands)
    (hpc : t'.loop = t.loop) (hreplies : t'.replies = t.replies) : SameAsks t t' :=
  .of_commands [] (fun _ hc => absurd hc List.not_mem_nil)
    (hcommands.trans (List.append_nil _).symm) hpc hreplies

theorem SameAsks.of_command {t t' : Threads V} (c : Command V) (hshutdown : .shutdown ≠ c)
    (hmerge : c.isMerge = false) (hcommands : t'.commands = t.commands ++ [c])
    (hpc : t'.loop = t.loop) (hreplies : t'.replies = t.replies) : SameAsks t t' := by
  refine .of_commands [c] (fun c' hc' => ?_) hcommands hpc hreplies
  rw [List.mem_singleton.mp hc']
  exact ⟨hshutdown, hmerge⟩

theorem sameAsks_bridgeStep (t : Threads V) : SameAsks t t.bridgeStep := by
  unfold bridgeStep
  split
  · split <;> exact .of_same rfl rfl rfl
  · exact .of_same rfl rfl rfl
  · exact .of_command .sourceReady (by simp) rfl rfl rfl rfl

theorem sameAsks_notifyStep (t : Threads V) : SameAsks t t.notifyStep := by
  unfold notifyStep
  simp only
  split
  · exact .of_command .asyncComplete (by simp) rfl rfl rfl rfl
  · exact .of_same rfl rfl rfl

theorem sameAsks_dropHandle (t : Threads V) (nodeIds : List NodeId) :
    SameAsks t (t.apply (.dropHandle nodeIds)) := by
  simp only [Threads.apply]
  split
  · exact .of_same rfl rfl rfl
  · exact .of_command (.remove nodeIds) (by simp) rfl rfl rfl rfl

/-- The loop is blocked in `recv` on an empty command channel, nothing waits for the bridge thread,
and no task runs or is about to announce itself. -/
structure Idle (t : Threads V) : Prop where
  loop : t.loop = .blocked
  commands : t.commands = []
  bridgeRx : t.bridgeRx = []
  running : t.engine.asyncManager.runtime.running = []
  notifying : t.engine.asyncManager.runtime.notifying = 0

end Threads

/-- The drop of a handle or of a `Sender`. -/
def Act.isDrop : Act V → Bool
  | .dropHandle | .dropRemote _ | .dropSender => true
  | _ => false

namespace Started

variable {s : Started V}

/-! ## The invariant -/

/-- As long as the loop runs the bridge does; a shutdown that was asked for is on its way or done;
and who waits for a merge has a handle. `Awake` is the invariant of the wakeups, used to see that an
idle engine has nothing waiting. -/
structure Kept (s : Started V) : Prop where
  awake : s.threads.Awake
  bridge : s.threads.loop ≠ .stopped → s.bridgeRuns
  asked : s.asked ↔ s.threads.Asked
  merges : s.threads.loop ≠ .stopped → s.threads.merges ≤ s.merging
  borrowed : s.handles = 0 → s.merging = 0

theorem Kept.init : (init : Started V).Kept where
  awake := .init
  bridge _ := rfl
  asked := by simp [Started.init, Threads.init, Threads.Asked, LoopPc.Stops]
  merges _ := Nat.le_refl 0
  borrowed h := absurd h Nat.one_ne_zero

/-- **Two of the command senders are the loop's own**, with the bridge and in the notifier. Both are
there as long as the loop runs, whatever its owners do. -/
theorem Kept.two_le_commandSenders (h : s.Kept) (hpc : s.threads.loop ≠ .stopped) :
    2 ≤ s.commandSenders := by
  have hbridge : s.bridgeRuns.toNat = 1 := by rw [h.bridge hpc]; rfl
  have hnotifier : (s.threads.engine.asyncManager.notifier &&
      !s.threads.loop.isStopped).toNat = 1 := by
    rw [h.awake.notifier, LoopPc.isStopped_of_ne hpc]
    rfl
  simp only [commandSenders]
  omega

/-- **The exit for the time when all senders have been dropped is never taken.** `recv` fails when
there is no sender, and two are the loop's own. -/
theorem Kept.not_recvFails (h : s.Kept) : ¬ s.RecvFails := by
  intro hfails
  have hpc : s.threads.loop ≠ .stopped := by
    intro hpc
    have hblocked := hfails.1
    rw [hpc] at hblocked
    exact Bool.noConfusion hblocked
  have := h.two_le_commandSenders hpc
  have := hfails.2.2
  omega

theorem Kept.apply_loop (h : s.Kept) (o : CycleOrder) :
    s.apply (.loop o) = { s with threads := s.threads.loopStep o } := if_neg h.not_recvFails

theorem Kept.setThreads (h : s.Kept) {t : Threads V} (hawake : t.Awake)
    (hsame : Threads.SameAsks s.threads t) : Kept { s with threads := t } where
  awake := hawake
  bridge hpc := h.bridge (mt hsame.stopped hpc)
  asked := h.asked.trans hsame.asked.symm
  merges hpc := hsame.merges.trans_le (h.merges (mt hsame.stopped hpc))
  borrowed := h.borrowed

/-- Handles come and go, but not one that a merge borrows. -/
theorem Kept.setHandles (h : s.Kept) {n : ℕ} (hn : n = 0 → s.merging = 0) :
    Kept { s with handles := n } :=
  ⟨h.awake, h.bridge, h.asked, h.merges, hn⟩

theorem Kept.setRemotes (h : s.Kept) (remotes : List (List NodeId)) :
    Kept { s with remotes := remotes } :=
  ⟨h.awake, h.bridge, h.asked, h.merges, h.borrowed⟩

theorem Kept.setSenders (h : s.Kept) (n : ℕ) : Kept { s with sourceSenders := n } :=
  ⟨h.awake, h.bridge, h.asked, h.merges, h.borrowed⟩

/-- The bridge ends when nobody is left on the other end, and then the loop has ended before: the
graph has a sender of its own. -/
theorem Kept.endBridge (h : s.Kept) (hfails : s.BridgeRecvFails) :
    Kept { s with bridgeRuns := false } := by
  refine ⟨h.awake, fun hpc => ?_, h.asked, h.merges, h.borrowed⟩
  have hsenders := hfails.2.2
  rw [bridgeSenders, LoopPc.isStopped_of_ne hpc] at hsenders
  exact absurd hsenders (by simp)

theorem Kept.ask (h : s.Kept) :
    Kept { s with threads := s.threads.apply .shutdown, asked := true } := by
  refine ⟨h.awake.apply .shutdown, h.bridge, ?_, ?_, h.borrowed⟩
  · simp [Threads.Asked, Threads.apply, Threads.post]
  · simpa [Threads.merges, Threads.apply, Threads.post, Command.isMerge] using h.merges

theorem Kept.merge (h : s.Kept) (hpos : 0 < s.handles) (subgraph : Subgraph V) (reply : ℕ) :
    Kept { s with
      threads := s.threads.apply (.merge subgraph reply), merging := s.merging + 1 } := by
  refine ⟨h.awake.apply (.merge subgraph reply), h.bridge, ?_, fun hpc => ?_,
    fun h0 => absurd h0 hpos.ne'⟩
  · simpa [Threads.Asked, Threads.apply, Threads.post] using h.asked
  · have hmerges := h.merges hpc
    simp only [Threads.merges, Threads.apply, Threads.post, List.countP_append,
      List.countP_singleton, Command.isMerge, if_true] at hmerges ⊢
    omega

/-- A merge that has its reply waits no more. -/
theorem Kept.merged (h : s.Kept) {i : ℕ} (hi : i < s.threads.replies.length) :
    Kept { s with
      threads := { s.threads with replies := s.threads.replies.eraseIdx i }
      merging := s.merging - 1 } := by
  have hawake := h.awake
  refine ⟨⟨hawake.bridge, hawake.notifier, hawake.notifies, hawake.sources, hawake.results,
    hawake.conserved⟩, h.bridge, h.asked, fun hpc => ?_, fun h0 => ?_⟩
  · have hmerges := h.merges hpc
    simp only [Threads.merges, List.length_eraseIdx, if_pos hi] at hmerges ⊢
    omega
  · rw [h.borrowed h0]

theorem Kept.unanswered (h : s.Kept) (hstopped : s.threads.loop.isStopped) :
    Kept { s with merging := s.merging - 1 } := by
  refine ⟨h.awake, h.bridge, h.asked, fun hpc => ?_, fun h0 => ?_⟩
  · rw [LoopPc.isStopped_of_ne hpc] at hstopped
    exact Bool.noConfusion hstopped
  · rw [h.borrowed h0]

theorem Kept.apply (h : s.Kept) (a : Act V) : (s.apply a).Kept := by
  cases a with
  | loop o =>
    rw [h.apply_loop]
    exact h.setThreads (h.awake.loopStep o) (s.threads.sameAsks_loopStep o)
  | bridge =>
    simp only [Started.apply]
    split
    · split
      · next hfails => exact h.endBridge hfails
      · exact h.setThreads h.awake.bridgeStep s.threads.sameAsks_bridgeStep
    · exact h
  | complete task => exact h.setThreads (h.awake.completeStep task) (.of_same rfl rfl rfl)
  | notify => exact h.setThreads h.awake.notifyStep s.threads.sameAsks_notifyStep
  | cloneHandle =>
    simp only [Started.apply]
    split
    · exact h.setHandles fun h0 => absurd h0 (Nat.succ_ne_zero _)
    · exact h
  | dropHandle =>
    simp only [Started.apply]
    split
    · next hmay =>
      -- The last handle goes only when no merge is waiting on it.
      refine h.setHandles fun h0 => ?_
      rcases hmay with hmerging | hmore
      · exact hmerging
      · exact absurd h0 (Nat.sub_ne_zero_of_lt hmore)
    · exact h
  | updateSource id value =>
    simp only [Started.apply]
    split
    · exact h.setThreads (h.awake.apply _)
        (.of_command (.sourceUpdate id value) (by simp) rfl rfl rfl rfl)
    · exact h
  | shutdown =>
    simp only [Started.apply]
    split
    · exact h.ask
    · exact h
  | merge subgraph reply =>
    simp only [Started.apply]
    split
    · next hpos => exact h.merge hpos subgraph reply
    · exact h
  | merged i =>
    simp only [Started.apply]
    split
    · next nodeIds hi =>
      exact (h.merged (List.getElem?_eq_some_iff.mp hi).1).setRemotes (s.remotes ++ [nodeIds])
    · exact h
  | unanswered =>
    simp only [Started.apply]
    split
    · next hstopped => exact (h.unanswered hstopped.1).setRemotes (s.remotes ++ [[]])
    · exact h
  | dropRemote i =>
    simp only [Started.apply]
    split
    · next nodeIds hi =>
      exact (h.setThreads (h.awake.apply (.dropHandle nodeIds))
        (s.threads.sameAsks_dropHandle nodeIds)).setRemotes (s.remotes.eraseIdx i)
    · exact h
  | handOut =>
    simp only [Started.apply]
    split
    · exact h.setSenders _
    · exact h
  | cloneSender =>
    simp only [Started.apply]
    split
    · exact h.setSenders _
    · exact h
  | dropSender => exact h.setSenders _
  | send id value =>
    simp only [Started.apply]
    split
    · exact h.setThreads (h.awake.apply _) (.of_same rfl rfl rfl)
    · exact h

/-! ## Owners -/

/-- What is outside the engine and keeps a way to it: handles of the loop, handles of subgraphs,
which post their removal when they are dropped, and `Sender`s. -/
def owners (s : Started V) : ℕ := s.handles + s.remotes.length + s.sourceSenders

theorem owners_eq_zero :
    s.owners = 0 ↔ s.handles = 0 ∧ s.remotes = [] ∧ s.sourceSenders = 0 := by
  rw [owners, Nat.add_eq_zero_iff, Nat.add_eq_zero_iff, List.length_eq_zero_iff, and_assoc]

/-- Only drops take owners away. A merge makes one more, and a clone does. -/
theorem owners_le_apply (h : s.Kept) {a : Act V} (ha : a.isDrop = false) :
    s.owners ≤ (s.apply a).owners := by
  cases a with
  | dropHandle => exact Bool.noConfusion ha
  | dropRemote i => exact Bool.noConfusion ha
  | dropSender => exact Bool.noConfusion ha
  | loop o =>
    rw [h.apply_loop]
    exact Nat.le_refl _
  | complete task => exact Nat.le_refl _
  | notify => exact Nat.le_refl _
  | bridge =>
    simp only [Started.apply]
    split
    · split <;> exact Nat.le_refl _
    · exact Nat.le_refl _
  | _ =>
    simp only [Started.apply]
    split
    · simp only [owners, List.length_append, List.length_singleton]
      omega
    · exact Nat.le_refl _

/-- A shutdown that was asked for is not taken back, and only somebody with a handle asks. -/
theorem asked_apply (s : Started V) (a : Act V) :
    (s.apply a).asked = s.asked ∨ 0 < s.handles ∧ a = .shutdown := by
  cases a with
  | shutdown =>
    by_cases hpos : 0 < s.handles
    · exact Or.inr ⟨hpos, rfl⟩
    · exact Or.inl (by rw [Started.apply, if_neg hpos])
  | complete task => exact Or.inl rfl
  | notify => exact Or.inl rfl
  | dropSender => exact Or.inl rfl
  | bridge =>
    simp only [Started.apply]
    split
    · split <;> exact Or.inl rfl
    · exact Or.inl rfl
  | _ =>
    simp only [Started.apply]
    split <;> exact Or.inl rfl

/-- Nobody owns anything, and nobody has asked the loop to stop. -/
structure Gone (s : Started V) : Prop where
  owners : s.owners = 0
  asked : s.asked = false

theorem Gone.running (hg : s.Gone) (h : s.Kept) : s.threads.loop ≠ .stopped := by
  intro hpc
  have hasked : s.asked = true := h.asked.mpr (Or.inr (by rw [hpc]; trivial))
  exact absurd (hasked.symm.trans hg.asked) (by simp)

/-- Nobody waits for a merge, and the loop is not in the middle of one. -/
theorem Gone.merges (hg : s.Gone) (h : s.Kept) : s.merging = 0 ∧ s.threads.merges = 0 := by
  have hmerging := h.borrowed (owners_eq_zero.mp hg.owners).1
  have hmerges := h.merges (hg.running h)
  exact ⟨hmerging, by omega⟩

theorem Gone.replies (hg : s.Gone) (h : s.Kept) :
    s.threads.loop.isActivating = false ∧ s.threads.replies = [] := by
  have hmerges := (hg.merges h).2
  simp only [Threads.merges, Nat.add_eq_zero_iff, List.length_eq_zero_iff] at hmerges
  refine ⟨?_, hmerges.2⟩
  have hpc := hmerges.1.2
  cases hloop : s.threads.loop with
  | sending outbox replies commands hasUpdates shouldShutdown =>
    rw [hloop] at hpc
    rw [show replies = [] from hpc]
    rfl
  | _ => rfl

/-- **There is no way back.** Whoever could make an owner is one, and so is whoever could ask for a
shutdown; the loop answers no merge, for none is under way. -/
theorem Gone.apply (hg : s.Gone) (h : s.Kept) (a : Act V) : (s.apply a).Gone := by
  obtain ⟨hhandles, hremotes, hsenders⟩ := owners_eq_zero.mp hg.owners
  have hasked : (s.apply a).asked = false := by
    rcases s.asked_apply a with heq | ⟨hpos, -⟩
    · exact heq.trans hg.asked
    · exact absurd hhandles hpos.ne'
  refine ⟨?_, hasked⟩
  obtain ⟨hactivating, hreplies⟩ := hg.replies h
  have hpos : ¬ 0 < s.handles := by omega
  cases a with
  -- The parties of the engine own nothing outside it.
  | loop o =>
    rw [h.apply_loop]
    exact hg.owners
  | complete task => exact hg.owners
  | notify => exact hg.owners
  | bridge =>
    simp only [Started.apply]
    split
    · split <;> exact hg.owners
    · exact hg.owners
  -- Every call on a handle or on a sender needs one to call it on.
  | cloneHandle => rw [Started.apply, if_neg hpos]; exact hg.owners
  | updateSource id value => rw [Started.apply, if_neg hpos]; exact hg.owners
  | shutdown => rw [Started.apply, if_neg hpos]; exact hg.owners
  | merge subgraph reply => rw [Started.apply, if_neg hpos]; exact hg.owners
  | dropHandle =>
    simp only [Started.apply]
    split
    · exact owners_eq_zero.mpr ⟨by simp [hhandles], hremotes, hsenders⟩
    · exact hg.owners
  | dropSender => exact owners_eq_zero.mpr ⟨hhandles, hremotes, by simp [Started.apply, hsenders]⟩
  | merged i => simpa [Started.apply, hreplies] using hg.owners
  | unanswered =>
    have hstopped := LoopPc.isStopped_of_ne (hg.running h)
    simpa [Started.apply, hstopped] using hg.owners
  | dropRemote i => simpa [Started.apply, hremotes] using hg.owners
  | handOut => simpa [Started.apply, hactivating] using hg.owners
  | cloneSender => simpa [Started.apply, hsenders] using hg.owners
  | send id value => simpa [Started.apply, hsenders] using hg.owners

/-! ## Asleep -/

/-- The loop is blocked, there is nothing for it to do, and all handles and all `Sender`s outside
the graph have been dropped. -/
structure Abandoned (s : Started V) : Prop where
  idle : s.threads.Idle
  handles : s.handles = 0
  remotes : s.remotes = []
  sourceSenders : s.sourceSenders = 0

/-- The loop's next step is its `break`, in whatever order a cycle would go. -/
def Exits (s : Started V) : Prop := ∀ o, (s.apply (.loop o)).threads.loop = .stopped

/-- The loop has come to its end, or to a sleep that only a client can wake it from. -/
def AtRest (s : Started V) : Prop := s.threads.loop = .stopped ∨ s.threads.Idle

/-- A drop after which there is no owner left comes after a shutdown has been asked for. A condition
on the state before the drop, and on how many owners it takes away. -/
def AsksFirst (s : Started V) (a : Act V) : Prop :=
  a.isDrop → (s.apply a).owners = 0 → s.asked

theorem Abandoned.not_asked (ha : s.Abandoned) (h : s.Kept) : s.asked = false := by
  refine Bool.eq_false_iff.mpr fun hasked => ?_
  rcases h.asked.mp hasked with hmem | hstops
  · rw [ha.idle.commands] at hmem
    exact List.not_mem_nil hmem
  · rw [ha.idle.loop] at hstops
    exact hstops

/-- A loop that is blocked on an empty channel stays blocked, since the channel has senders. -/
theorem Abandoned.not_exits (ha : s.Abandoned) (h : s.Kept) : ¬ s.Exits := by
  intro hexits
  have hstopped := hexits default
  rw [h.apply_loop] at hstopped
  simp only [Threads.loopStep, ha.idle.loop, ha.idle.commands] at hstopped
  exact absurd hstopped (by simp)

/-- **An abandoned loop is stuck**: no party can take a step that changes anything. One case for
each party; all but the bridge need an owner or a task, and the bridge is blocked on an empty
channel itself. -/
theorem Abandoned.stuck (ha : s.Abandoned) (h : s.Kept) (hbridge : s.threads.bridge = .blocked)
    (a : Act V) : s.apply a = s := by
  have hgone : s.Gone :=
    ⟨owners_eq_zero.mpr ⟨ha.handles, ha.remotes, ha.sourceSenders⟩, ha.not_asked h⟩
  have hmerging := (hgone.merges h).1
  obtain ⟨hactivating, hreplies⟩ := hgone.replies h
  have hrunning := LoopPc.isStopped_of_ne (hgone.running h)
  have hpos : ¬ 0 < s.handles := by rw [ha.handles]; exact Nat.lt_irrefl 0
  cases a with
  | loop o =>
    rw [h.apply_loop, Threads.loopStep, ha.idle.loop]
    simp only [ha.idle.commands]
  | bridge =>
    -- The graph in the loop keeps its own sender, so the bridge's `recv` cannot fail.
    have hfails : ¬ s.BridgeRecvFails := fun hfails => by
      simpa [bridgeSenders, hrunning] using hfails.2.2
    simp [Started.apply, hfails, Threads.bridgeStep, hbridge, ha.idle.bridgeRx]
  | complete task =>
    simp [Started.apply, Threads.completeStep, AsyncManager.complete, Runtime.find,
      ha.idle.running]
  | notify => simp [Started.apply, Threads.notifyStep, ha.idle.notifying]
  | cloneHandle => exact if_neg hpos
  | updateSource id value => exact if_neg hpos
  | shutdown => exact if_neg hpos
  | merge subgraph reply => exact if_neg hpos
  | dropHandle =>
    have hsame : s.handles - 1 = s.handles := by rw [ha.handles]
    rw [Started.apply, if_pos (Or.inl hmerging), hsame]
  | dropSender =>
    have hsame : s.sourceSenders - 1 = s.sourceSenders := by rw [ha.sourceSenders]
    rw [Started.apply, hsame]
  | merged i => simp [Started.apply, hreplies]
  | unanswered => simp [Started.apply, hrunning]
  | dropRemote i => simp [Started.apply, ha.remotes]
  | handOut => simp [Started.apply, hactivating]
  | cloneSender => simp [Started.apply, ha.sourceSenders]
  | send id value => simp [Started.apply, ha.sourceSenders]

/-! ## Runs -/

/-- Where shutdowns are asked for in time, there is an owner or the loop has been asked to stop. The
step of the first direction. -/
theorem asked_of_asksFirst (h : s.Kept) (hs : s.owners = 0 → s.asked) {a : Act V}
    (ha : s.AsksFirst a) (howners : (s.apply a).owners = 0) : (s.apply a).asked := by
  have hasked : s.asked = true := by
    cases hdrop : a.isDrop with
    | true => exact ha hdrop howners
    | false =>
      have hle := owners_le_apply h hdrop
      exact hs (by omega)
  rcases s.asked_apply a with heq | ⟨hpos, rfl⟩
  · exact heq.trans hasked
  · rw [Started.apply, if_pos hpos]

theorem gone_of_not_asksFirst {a : Act V} (ha : ¬ s.AsksFirst a) : (s.apply a).Gone := by
  simp only [AsksFirst, Classical.not_imp] at ha
  obtain ⟨hdrop, howners, hasked⟩ := ha
  refine ⟨howners, ?_⟩
  rcases s.asked_apply a with heq | ⟨-, rfl⟩
  · exact heq.trans (Bool.eq_false_iff.mpr hasked)
  · exact Bool.noConfusion hdrop

theorem kept_run (as : List (Act V)) : (run as).Kept :=
  Runs.invariant_of_step (I := Kept) (fun _ a h => h.apply a) .init

/-- **Whether the loop is ever stuck is up to its owners**: not if the last of them goes after a
shutdown has been asked for; and if the last one goes before, the loop is stuck once it has come to
rest.

In the first direction the premise is never met: an abandoned loop has no owner, so it has been
asked to stop, and then it would not be blocked on an empty channel. In the second the step that
fails leaves `Gone`, which lasts, and rest without a shutdown is being abandoned. -/
theorem abandoned_exits_iff (as : List (Act V)) :
    (Runs.AllSteps apply AsksFirst init as →
      Runs.Always apply (fun s => s.Abandoned → s.Exits) init as) ∧
    ((run as).AtRest → Runs.Always apply (fun s => s.Abandoned → s.Exits) init as →
      Runs.AllSteps apply AsksFirst init as) := by
  constructor
  · intro hsteps
    refine Runs.always_of_invariant (I := fun s => s.Kept ∧ (s.owners = 0 → s.asked))
      (fun s a h ha => ⟨h.1.apply a, asked_of_asksFirst h.1 h.2 ha⟩) ?_
      ⟨.init, fun h => absurd h Nat.one_ne_zero⟩ hsteps
    intro s h habandoned
    have hasked := h.2 (owners_eq_zero.mpr ⟨habandoned.handles, habandoned.remotes,
      habandoned.sourceSenders⟩)
    exact absurd (hasked.symm.trans (habandoned.not_asked h.1)) (by simp)
  · intro hrest halways
    have htrap : Runs.AllSteps apply AsksFirst init as ∨ (run as).Gone :=
      Runs.allSteps_or_trapped (I := Kept) (fun _ a h => h.apply a)
        (fun _ _ _ => gone_of_not_asksFirst) (fun _ a h hg => hg.apply h a) .init
    refine htrap.resolve_right fun hgone => ?_
    have hkept := kept_run as
    obtain ⟨hhandles, hremotes, hsenders⟩ := owners_eq_zero.mp hgone.owners
    have hidle := hrest.resolve_left (hgone.running hkept)
    have habandoned : (run as).Abandoned := ⟨hidle, hhandles, hremotes, hsenders⟩
    exact habandoned.not_exits hkept (halways.last habandoned)

/-- The handle that `start_engine` returned is dropped, and nothing else happens: the loop sleeps
for ever, whoever takes a step. -/
theorem dropped_handle_stuck :
    ¬ Runs.Always apply (fun s => s.Abandoned → s.Exits) (init : Started ℕ) [.dropHandle] ∧
    ∀ as, run (.dropHandle :: as) = (run [.dropHandle] : Started ℕ) := by
  have habandoned : (run [.dropHandle] : Started ℕ).Abandoned :=
    ⟨⟨rfl, rfl, rfl, rfl, rfl⟩, rfl, rfl, rfl⟩
  have hkept := kept_run ([.dropHandle] : List (Act ℕ))
  constructor
  · intro halways
    exact habandoned.not_exits hkept (halways.last habandoned)
  · intro as
    exact Runs.run_of_fixed (habandoned.stuck hkept rfl) as

end Started

end ReactiveGraph
