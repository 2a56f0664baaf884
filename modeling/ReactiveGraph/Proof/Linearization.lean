import ReactiveGraph.Proof.Balance
import ReactiveGraph.Proof.Exit
import ReactiveGraph.Proof.Structure

/-!
# The loop is a sequence of commands

Any number of clients send commands while tasks, the bridge and the loop run. Two traces describe a
run: the commands in the order they are posted, whoever posts them, and the commands in the order
the loop handles them. **The second is the beginning of the first**, and what is missing from it is
held by the loop or waiting in the channel. The engine's structure is what handling these commands
one after the other makes of a new engine, without any thread at all: nothing that is received,
computed or completed in between has a say in it. The replies are those of the merges handled, each
given once and in order, and the loop closes when it has handled a shutdown.

**Structure is everything but values**: the registry, the topology, what is active and which
removals are deferred. Values are left out since they depend on when a task completes and when the
bridge gets its turn. What they come to once everything is quiet is another matter
(`Proof/Convergence.lean`), and so is their order (`Proof/Arrival.lean`).

The invariant is `Linear`, one clause for each sentence of the first paragraph, and it is kept by
every move of every party. A move posts, collects or handles, or does neither; so there is one lemma
for each, and `Linear.congr` for the moves that are none of these. `linearizable` is then induction
along the run, with the two traces read off the moves.

The channel is modelled as staying open after the loop has stopped: whoever posts then posts to
nobody, and what is posted stays where it is.
-/

namespace ReactiveGraph

open Engine

variable {V : Type*}

/-- The loop has stopped, or will at the end of the iteration it is in. Until the commands are
handled one by one, none of those collected has a say. -/
def LoopPc.closing : LoopPc V → Bool
  | .blocked | .collecting _ => false
  | .processing _ _ shouldShutdown | .sending _ _ _ _ shouldShutdown
  | .drainingSources _ shouldShutdown | .drainingResults _ _ shouldShutdown
  | .completing _ _ _ shouldShutdown | .spawning _ _ shouldShutdown => shouldShutdown
  | .stopped => true

namespace Threads

variable {t : Threads V} {posted handled : List (Command V)}

/-- The commands that a move posts: the bridge's announcement, a task's, and the clients' own. A
handle without nodes posts nothing when it is dropped. -/
def posts (t : Threads V) : Move V → List (Command V)
  | .bridge =>
    match t.bridge with
    | .notifying => [.sourceReady]
    | _ => []
  | .notify => if 0 < t.engine.asyncManager.runtime.notifying then [.asyncComplete] else []
  | .updateSource id value => [.sourceUpdate id value]
  | .merge subgraph reply => [.merge subgraph reply]
  | .dropHandle nodeIds => if nodeIds = [] then [] else [.remove nodeIds]
  | .shutdown => [.shutdown]
  | .loop _ | .complete _ | .send _ _ => []

/-- The commands that a move handles: one, if the loop is at the point of handling one, and else
none. -/
def handles (t : Threads V) : Move V → List (Command V)
  | .loop _ =>
    match t.loop with
    | .processing (command :: _) _ _ => [command]
    | _ => []
  | _ => []

/-- What has become of the commands posted, and what the commands handled have made of the engine:
the order is kept, the structure is that of the commands handled alone, and so are the replies and
the end. -/
structure Linear (t : Threads V) (posted handled : List (Command V)) : Prop where
  fifo : posted = handled ++ t.loop.collected ++ t.commands
  wiring : SameStructure (EventLoop.handleAll EventLoop.start handled).engine t.engine
  undeferred : t.engine.pendingRemovals = []
  replies : t.replies ++ t.loop.replies = (EventLoop.handleAll EventLoop.start handled).replies
  closing : t.loop.closing ↔ .shutdown ∈ handled

theorem Linear.init : Linear (init : Threads V) [] [] :=
  ⟨rfl, .refl _, rfl, rfl, by simp [Threads.init, LoopPc.closing]⟩

/-- A step that neither posts nor handles a command: the values may change, and where the loop is,
as long as what it holds stays the same. -/
theorem Linear.congr (h : t.Linear posted handled) {t' : Threads V}
    (hs : SameStructure t.engine t'.engine) (hcommands : t'.commands = t.commands)
    (hreplies : t'.replies ++ t'.loop.replies = t.replies ++ t.loop.replies)
    (hcollected : t'.loop.collected = t.loop.collected)
    (hclosing : t'.loop.closing = t.loop.closing) : t'.Linear posted handled where
  fifo := by rw [hcollected, hcommands, h.fifo]
  wiring := h.wiring.trans hs
  undeferred := hs.pendingRemovals.trans h.undeferred
  replies := hreplies.trans h.replies
  closing := by rw [hclosing, h.closing]

/-- The loop takes a command out of the channel. -/
theorem Linear.collect (h : t.Linear posted handled) {c : Command V} {commands : List (Command V)}
    (hcs : t.commands = c :: commands) (hreplies : t.loop.replies = [])
    (hclosing : t.loop.closing = false) :
    Linear { t with commands := commands, loop := .collecting (t.loop.collected ++ [c]) }
      posted handled where
  fifo := by
    rw [h.fifo, hcs]
    simp [LoopPc.collected]
  wiring := h.wiring
  undeferred := h.undeferred
  replies := by
    rw [← h.replies, hreplies]
    rfl
  closing := by
    rw [← h.closing, hclosing]
    rfl

/-- Any party posts a command, at the end of the channel. -/
theorem Linear.post (h : t.Linear posted handled) (c : Command V) {t' : Threads V}
    (hs : SameStructure t.engine t'.engine) (hcommands : t'.commands = t.commands ++ [c])
    (hreplies : t'.replies = t.replies) (hloop : t'.loop = t.loop) :
    t'.Linear (posted ++ [c]) handled where
  fifo := by rw [hcommands, hloop, h.fifo, List.append_assoc]
  wiring := h.wiring.trans hs
  undeferred := hs.pendingRemovals.trans h.undeferred
  replies := by rw [hreplies, hloop, h.replies]
  closing := by rw [hloop, h.closing]

/-! ## Handling a command -/

end Threads

namespace EventLoop

/-- What handling a command makes of the structure is decided by the structure. The values it is
handled with do not matter. -/
theorem handle_sameStructure {s s' : Iteration V} (h : SameStructure s.engine s'.engine)
    (c : Command V) : SameStructure (handle s c).engine (handle s' c).engine := by
  cases c with
  | sourceUpdate id value =>
    exact ⟨h.entries, h.topology, h.active, h.guards, h.errorStrategies, h.pendingRemovals⟩
  | merge subgraph reply =>
    exact (h.registerAll subgraph.descriptors).foldl (fun id _ _ h' => h'.activateIfSink id)
      subgraph.nodeIds
  | remove nodeIds => exact h.release nodeIds
  | asyncComplete | sourceReady | shutdown => exact h

/-- A reply is given whatever was replied before. -/
theorem replies_handle (s s' : Iteration V) (h : s'.replies = []) (c : Command V) :
    (handle s c).replies = s.replies ++ (handle s' c).replies := by
  cases c with
  | merge subgraph reply => simp only [handle, h, List.nil_append]
  | sourceUpdate | remove | asyncComplete | sourceReady | shutdown =>
    simp only [handle, h, List.append_nil]

theorem handleAll_snoc (e : Engine V) (commands : List (Command V)) (c : Command V) :
    handleAll e (commands ++ [c]) = handle (handleAll e commands) c := by
  rw [handleAll, List.foldl_append]
  rfl

end EventLoop

namespace Threads

variable {t : Threads V} {posted handled : List (Command V)}

theorem Linear.process (h : t.Linear posted handled) {c : Command V} {commands : List (Command V)}
    {hasUpdates shouldShutdown : Bool}
    (hpc : t.loop = .processing (c :: commands) hasUpdates shouldShutdown) :
    (t.process c commands hasUpdates shouldShutdown).Linear posted (handled ++ [c]) where
  fifo := by
    rw [h.fifo, hpc]
    simp [Threads.process, LoopPc.collected]
  wiring := by
    have hs : SameStructure
        (EventLoop.handle (EventLoop.handleAll EventLoop.start handled) c).engine
        (EventLoop.handle ⟨t.engine, [], hasUpdates, shouldShutdown⟩ c).engine :=
      EventLoop.handle_sameStructure h.wiring c
    rw [EventLoop.handleAll_snoc]
    exact ⟨hs.entries, hs.topology, hs.active, hs.guards, hs.errorStrategies, hs.pendingRemovals⟩
  undeferred :=
    EventLoop.pendingRemovals_handle (s := ⟨t.engine, [], hasUpdates, shouldShutdown⟩) h.undeferred c
  replies := by
    rw [EventLoop.handleAll_snoc,
      EventLoop.replies_handle _ ⟨t.engine, [], hasUpdates, shouldShutdown⟩ rfl, ← h.replies, hpc]
    simp only [LoopPc.replies, List.append_nil]
    rfl
  closing := by
    have hclosing := h.closing
    rw [hpc] at hclosing
    rw [List.mem_append, ← hclosing, List.mem_singleton]
    exact EventLoop.handle_shouldShutdown ⟨t.engine, [], hasUpdates, shouldShutdown⟩ c

theorem sameStructure_execute (e : Engine V) (sorted : List NodeId) :
    SameStructure e (e.executeSequentialWithAsync sorted).engine := by
  rw [(executeSequentialWithAsync_eq e sorted).1]
  exact (sameFrame_setStore_record e _ _).sameStructure

/-- Whatever the loop does with a cycle is no matter of structure. The iteration ends, and with it
the loop, if a shutdown was handled. -/
theorem Linear.execute (h : t.Linear posted handled) (o : CycleOrder) {updated : List NodeId}
    {results : List (NodeId × V)} {shouldShutdown : Bool}
    (hpc : t.loop = .completing [] updated results shouldShutdown) :
    (t.execute o updated results shouldShutdown).Linear posted handled := by
  have hstore : SameStructure t.engine
      (t.engine.setStore (Engine.receive t.engine.graph.valueStore results)) :=
    ⟨rfl, rfl, rfl, rfl, rfl, rfl⟩
  unfold Threads.execute
  simp only
  split
  · refine h.congr hstore rfl ?_ ?_ ?_ <;> rw [hpc] <;> cases shouldShutdown <;> rfl
  · refine h.congr (hstore.trans (sameStructure_execute _ _)) rfl ?_ ?_ ?_ <;> rw [hpc] <;> rfl

theorem Linear.loopStep (h : t.Linear posted handled) (o : CycleOrder) :
    (t.loopStep o).Linear posted (handled ++ t.handles (.loop o)) := by
  unfold Threads.loopStep handles
  cases hpc : t.loop with
  | blocked =>
    simp only [List.append_nil]
    split
    · next c commands hcs =>
      have hcol := h.collect hcs (by rw [hpc]; rfl) (by rw [hpc]; rfl)
      rwa [hpc] at hcol
    · exact h
  | collecting collected =>
    simp only [List.append_nil]
    split
    · next c commands hcs =>
      have hcol := h.collect hcs (by rw [hpc]; rfl) (by rw [hpc]; rfl)
      rwa [hpc] at hcol
    · refine h.congr (.refl _) rfl ?_ ?_ ?_ <;> rw [hpc] <;> rfl
  | processing commands hasUpdates shouldShutdown =>
    cases commands with
    | cons c commands => exact h.process hpc
    | nil =>
      simp only [List.append_nil]
      cases hasUpdates with
      | true =>
        -- no removal has been put off
        have hd : t.engine.drainPendingRemovals = t.engine :=
          drainPendingRemovals_of_nil h.undeferred
        refine h.congr (hd.symm ▸ .refl _) rfl ?_ ?_ ?_ <;> rw [hpc] <;> rfl
      | false =>
        refine h.congr (.refl _) rfl ?_ ?_ ?_ <;> rw [hpc] <;> cases shouldShutdown <;> rfl
  | sending outbox replies commands hasUpdates shouldShutdown =>
    simp only [List.append_nil]
    cases outbox with
    | cons msg outbox => refine h.congr (.refl _) rfl ?_ ?_ ?_ <;> rw [hpc] <;> rfl
    | nil =>
      refine h.congr (.refl _) rfl ?_ ?_ ?_ <;> rw [hpc]
      · exact List.append_nil _
      · rfl
      · rfl
  | drainingSources updated shouldShutdown =>
    simp only [List.append_nil]
    split
    · refine h.congr ⟨rfl, rfl, rfl, rfl, rfl, rfl⟩ rfl ?_ ?_ ?_ <;> rw [hpc] <;> rfl
    · refine h.congr (.refl _) rfl ?_ ?_ ?_ <;> rw [hpc] <;> rfl
  | drainingResults updated results shouldShutdown =>
    simp only [List.append_nil]
    split
    · refine h.congr ⟨rfl, rfl, rfl, rfl, rfl, rfl⟩ rfl ?_ ?_ ?_ <;> rw [hpc] <;> rfl
    · refine h.congr (.refl _) rfl ?_ ?_ ?_ <;> rw [hpc] <;> rfl
  | completing completed updated results shouldShutdown =>
    simp only [List.append_nil]
    cases completed with
    | cons id completed =>
      refine h.congr ⟨rfl, rfl, rfl, rfl, rfl, rfl⟩ rfl ?_ ?_ ?_ <;> rw [hpc] <;> rfl
    | nil => exact h.execute o hpc
  | spawning spawns metrics shouldShutdown =>
    simp only [List.append_nil]
    cases spawns with
    | cons s spawns =>
      refine h.congr ⟨rfl, rfl, rfl, rfl, rfl, rfl⟩ rfl ?_ ?_ ?_ <;> rw [hpc] <;> rfl
    | nil =>
      refine h.congr ⟨rfl, rfl, rfl, rfl, rfl, rfl⟩ rfl ?_ ?_ ?_ <;> rw [hpc] <;>
        cases shouldShutdown <;> rfl
  | stopped => simpa only [List.append_nil] using h

theorem Linear.apply (h : t.Linear posted handled) (m : Move V) :
    (t.apply m).Linear (posted ++ t.posts m) (handled ++ t.handles m) := by
  cases m with
  | loop o =>
    rw [posts, List.append_nil]
    exact h.loopStep o
  | bridge =>
    simp only [posts, handles, List.append_nil, Threads.apply, bridgeStep]
    cases t.bridge with
    | blocked =>
      simp only [List.append_nil]
      split
      · exact h.congr (.refl _) rfl rfl rfl rfl
      · exact h
    | forwarding msg =>
      simp only [List.append_nil]
      exact h.congr ⟨rfl, rfl, rfl, rfl, rfl, rfl⟩ rfl rfl rfl rfl
    -- the bridge has forwarded a value, and announces it
    | notifying => exact h.post _ (.refl _) rfl rfl rfl
  | complete task =>
    simp only [posts, handles, List.append_nil]
    exact h.congr ⟨rfl, rfl, rfl, rfl, rfl, rfl⟩ rfl rfl rfl rfl
  | notify =>
    simp only [posts, handles, List.append_nil, Threads.apply, notifyStep]
    split
    · exact h.post _ ⟨rfl, rfl, rfl, rfl, rfl, rfl⟩ rfl rfl rfl
    · simpa only [List.append_nil] using h
  | send id value =>
    simp only [posts, handles, List.append_nil]
    exact h.congr (.refl _) rfl rfl rfl rfl
  | updateSource id value =>
    simp only [posts, handles, List.append_nil]
    exact h.post _ (.refl _) rfl rfl rfl
  | merge subgraph reply =>
    simp only [posts, handles, List.append_nil]
    exact h.post _ (.refl _) rfl rfl rfl
  | dropHandle nodeIds =>
    simp only [posts, handles, List.append_nil, Threads.apply]
    split
    · simpa only [List.append_nil] using h
    · exact h.post _ (.refl _) rfl rfl rfl
  | shutdown =>
    simp only [posts, handles, List.append_nil]
    exact h.post _ (.refl _) rfl rfl rfl

/-- **Every interleaving is linear.** Along the run, by what one move of one party does; the traces
are those of the moves, in the order they were made.

Nothing is assumed of the clients, of when the loop gets its turn, or of how often. Whether a
command that was posted is ever handled is left open here: that it is, if every party keeps taking
turns, is a matter of coming to rest (`Proof/Quiescence.lean`). -/
theorem linearizable (ms : List (Move V)) :
    (run ms).Linear (Runs.trace apply posts init ms) (Runs.trace apply handles init ms) :=
  Runs.trace_induction (fun _ _ => True)
    (fun _ m _ _ h _ => h.apply m) .init (Runs.AllSteps.of_forall fun _ _ => trivial)

end Threads

end ReactiveGraph
