import ReactiveGraph.Lib.Interleave
import ReactiveGraph.Proof.GlitchFree
import ReactiveGraph.Proof.Wakeup

/-!
# The order of arrival

A value for a source gets to the source channel in one of two ways: through the bridge, where the
`Sender`s and the callbacks put it, or in a `SourceUpdate`, which the loop takes from the command
channel and copies. Each way has three or four stations, and other parties move between any two of
them. **No way changes its order, and none loses or doubles a value**: what the cycles drain,
followed by what waits in the source channel, is an interleaving of what has come over the bridge
and what has come in commands. Results have one way, and keep their order too.

So what a cycle finds to be the last value of a source is the last one sent over the bridge or the
last one sent in a command.

**Every list is a trace.** What a move puts in or takes out is a function of the state it is made in
(`bridges`, `completes`, `drainsSource`, `drainsResult`) or of the move alone (`directs`), and the
lists of a run are these put together. The invariant relates them to what is in the channels at the
moment (`Arriving`); a step moves one value from one station to the next, or puts one in, or takes
one out.

**How the two ways mix is not said**, and cannot be: the bridge may be delayed for as long as one
likes while commands overtake it. The interleaving is some interleaving. When the loop has stopped,
what is left in its channels stays there, in this account as values that have not been drained; in
the source they go with the engine.

No condition is put on the clients, or on what is merged.
-/

namespace ReactiveGraph

variable {V : Type*}

/-! ## What the moves put in and take out -/

/-- What a client sends in a command. -/
def Move.directs : Move V → List (NodeId × V)
  | .updateSource id value => [(id, value)]
  | _ => []

namespace Threads

/-- What a `Sender` sends, and what a callback does: the callback's values one by one, as the loop
gets round to sending them. -/
def bridges (t : Threads V) : Move V → List (NodeId × V)
  | .send id value => [(id, value)]
  | .loop _ =>
    match t.loop with
    | .sending (msg :: _) _ _ _ _ => [msg]
    | _ => []
  | _ => []

/-- The result a task sends. -/
def completes (t : Threads V) : Move V → List (NodeId × V)
  | .complete task =>
    (t.engine.asyncManager.runtime.find task).toList.map fun task => (task.nodeId, task.future)
  | _ => []

/-- What a cycle takes out of the source channel. -/
def drainsSource (t : Threads V) : Move V → List (NodeId × V)
  | .loop _ =>
    match t.loop with
    | .drainingSources _ _ => t.engine.graph.sourceRx.head?.toList
    | _ => []
  | _ => []

/-- What a cycle takes out of the result channel. -/
def drainsResult (t : Threads V) : Move V → List (NodeId × V)
  | .loop _ =>
    match t.loop with
    | .drainingResults _ _ _ => t.engine.asyncManager.resultRx.head?.toList
    | _ => []
  | _ => []

variable {t t' : Threads V} {bridged direct sources completed results : List (NodeId × V)}

/-- What has become of the values that were put in. Those sent over the bridge have come through,
are in the bridge's hand, or wait for it; those sent in commands have been copied, or are in a
command that waits or has been collected. -/
structure Arriving (t : Threads V) (bridged direct sources completed results : List (NodeId × V)) :
    Prop where
  sources : ∃ viaBridge viaCommand,
    Interleaved viaBridge viaCommand (sources ++ t.engine.graph.sourceRx) ∧
      bridged = viaBridge ++ t.bridge.held ++ t.bridgeRx ∧
      direct = viaCommand ++ (t.loop.collected ++ t.commands).flatMap Command.values
  results : completed = results ++ t.engine.asyncManager.resultRx

theorem Arriving.init : Arriving (init : Threads V) [] [] [] [] [] :=
  ⟨⟨[], [], .nil, rfl, rfl⟩, rfl⟩

/-- A step that moves no value: the four places hold what they held. -/
theorem Arriving.congr (h : t.Arriving bridged direct sources completed results)
    (hsrx : t'.engine.graph.sourceRx = t.engine.graph.sourceRx)
    (hrrx : t'.engine.asyncManager.resultRx = t.engine.asyncManager.resultRx)
    (hbridge : t'.bridge.held ++ t'.bridgeRx = t.bridge.held ++ t.bridgeRx)
    (hcommands : (t'.loop.collected ++ t'.commands).flatMap Command.values =
      (t.loop.collected ++ t.commands).flatMap Command.values) :
    t'.Arriving bridged direct sources completed results := by
  obtain ⟨⟨viaBridge, viaCommand, hinter, hb, hd⟩, hr⟩ := h
  refine ⟨⟨viaBridge, viaCommand, ?_, ?_, ?_⟩, ?_⟩
  · rwa [hsrx]
  · rw [List.append_assoc, hbridge, ← List.append_assoc, hb]
  · rw [hcommands, hd]
  · rw [hrrx, hr]

/-! ## Into the channels -/

theorem Arriving.send (h : t.Arriving bridged direct sources completed results) (msg : NodeId × V)
    (hsrx : t'.engine.graph.sourceRx = t.engine.graph.sourceRx)
    (hrrx : t'.engine.asyncManager.resultRx = t.engine.asyncManager.resultRx)
    (hheld : t'.bridge = t.bridge) (hrx : t'.bridgeRx = t.bridgeRx ++ [msg])
    (hcommands : t'.loop.collected ++ t'.commands = t.loop.collected ++ t.commands) :
    t'.Arriving (bridged ++ [msg]) direct sources completed results := by
  obtain ⟨⟨viaBridge, viaCommand, hinter, hb, hd⟩, hr⟩ := h
  refine ⟨⟨viaBridge, viaCommand, ?_, ?_, ?_⟩, ?_⟩
  · rwa [hsrx]
  · rw [hheld, hrx, hb]
    simp only [List.append_assoc]
  · rw [hcommands, hd]
  · rw [hrrx, hr]

/-- A command is posted, with the value it carries. -/
theorem Arriving.post (h : t.Arriving bridged direct sources completed results) (c : Command V)
    (hsrx : t'.engine.graph.sourceRx = t.engine.graph.sourceRx)
    (hrrx : t'.engine.asyncManager.resultRx = t.engine.asyncManager.resultRx)
    (hbridge : t'.bridge.held ++ t'.bridgeRx = t.bridge.held ++ t.bridgeRx)
    (hcommands : t'.loop.collected ++ t'.commands = t.loop.collected ++ t.commands ++ [c]) :
    t'.Arriving bridged (direct ++ c.values) sources completed results := by
  obtain ⟨⟨viaBridge, viaCommand, hinter, hb, hd⟩, hr⟩ := h
  refine ⟨⟨viaBridge, viaCommand, ?_, ?_, ?_⟩, ?_⟩
  · rwa [hsrx]
  · rw [List.append_assoc, hbridge, ← List.append_assoc, hb]
  · rw [hcommands, hd, ← List.flatMap_singleton Command.values c, List.append_assoc,
      ← List.flatMap_append]
  · rw [hrrx, hr]

theorem Arriving.postSilent (h : t.Arriving bridged direct sources completed results) (c : Command V)
    (hc : c.values = []) (hsrx : t'.engine.graph.sourceRx = t.engine.graph.sourceRx)
    (hrrx : t'.engine.asyncManager.resultRx = t.engine.asyncManager.resultRx)
    (hbridge : t'.bridge.held ++ t'.bridgeRx = t.bridge.held ++ t.bridgeRx)
    (hcommands : t'.loop.collected ++ t'.commands = t.loop.collected ++ t.commands ++ [c]) :
    t'.Arriving bridged direct sources completed results := by
  have hpost := h.post c hsrx hrrx hbridge hcommands
  rwa [hc, List.append_nil] at hpost

/-- A command is handled: what it carries is copied to the source channel, and becomes the last of
those that have come in commands. -/
theorem Arriving.handle (h : t.Arriving bridged direct sources completed results) (c : Command V)
    {commands : List (Command V)} (hcol : t.loop.collected = c :: commands)
    (hsrx : t'.engine.graph.sourceRx = t.engine.graph.sourceRx ++ c.values)
    (hrrx : t'.engine.asyncManager.resultRx = t.engine.asyncManager.resultRx)
    (hbridge : t'.bridge.held ++ t'.bridgeRx = t.bridge.held ++ t.bridgeRx)
    (hcommands : t'.loop.collected ++ t'.commands = commands ++ t.commands) :
    t'.Arriving bridged direct sources completed results := by
  obtain ⟨⟨viaBridge, viaCommand, hinter, hb, hd⟩, hr⟩ := h
  refine ⟨⟨viaBridge, viaCommand ++ c.values, ?_, ?_, ?_⟩, ?_⟩
  · rw [hsrx, ← List.append_assoc]
    exact hinter.append_right c.values
  · rw [List.append_assoc, hbridge, ← List.append_assoc, hb]
  · rw [hcommands, hd, hcol, List.cons_append, List.flatMap_cons, List.append_assoc]
  · rw [hrrx, hr]

theorem Arriving.process (h : t.Arriving bridged direct sources completed results)
    (hawake : t.Awake) {c : Command V} {commands : List (Command V)}
    {hasUpdates shouldShutdown : Bool}
    (hpc : t.loop = .processing (c :: commands) hasUpdates shouldShutdown) :
    (t.process c commands hasUpdates shouldShutdown).Arriving bridged direct sources completed
      results := by
  obtain ⟨hrx, -, hm, -⟩ := EventLoop.handle_channels ⟨t.engine, [], hasUpdates, shouldShutdown⟩
    (by rw [hawake.bridge]; rfl) c
  have hcol : t.loop.collected = c :: commands := by rw [hpc]; rfl
  exact h.handle c hcol hrx (congrArg AsyncManager.resultRx hm) rfl rfl

/-- Between the drains and the spawns nothing is sent or received. -/
theorem Arriving.execute (h : t.Arriving bridged direct sources completed results)
    (o : CycleOrder) {updated : List NodeId} {rs : List (NodeId × V)} {shouldShutdown : Bool}
    (hpc : t.loop = .completing [] updated rs shouldShutdown) :
    (t.execute o updated rs shouldShutdown).Arriving bridged direct sources completed results := by
  unfold Threads.execute
  simp only
  split
  · refine h.congr rfl rfl rfl ?_
    rw [hpc]
    cases shouldShutdown <;> rfl
  · obtain ⟨hsame, -⟩ := sameChannels_execute
      (t.engine.setStore (Engine.receive t.engine.graph.valueStore rs))
      (t.engine.topology.topoSort o.dirty
        (t.engine.topology.dirtySet o.sources (updated ++ rs.map Prod.fst).toFinset))
    refine h.congr hsame.sourceRx (congrArg AsyncManager.resultRx hsame.asyncManager) rfl ?_
    rw [hpc]
    rfl

/-! ## The steps -/

/-- The loop draws a command from the channel. -/
theorem Arriving.collect (h : t.Arriving bridged direct sources completed results)
    {c : Command V} {commands : List (Command V)} (hcs : t.commands = c :: commands) :
    Arriving { t with commands := commands, loop := .collecting (t.loop.collected ++ [c]) }
      bridged direct sources completed results := by
  refine h.congr rfl rfl rfl (congrArg (List.flatMap Command.values) ?_)
  rw [hcs]
  exact (List.append_cons t.loop.collected c commands).symm

theorem Arriving.loopStep (h : t.Arriving bridged direct sources completed results)
    (hawake : t.Awake) (o : CycleOrder) :
    (t.loopStep o).Arriving (bridged ++ t.bridges (.loop o)) direct
      (sources ++ t.drainsSource (.loop o)) completed (results ++ t.drainsResult (.loop o)) := by
  unfold Threads.loopStep bridges drainsSource drainsResult
  cases hpc : t.loop with
  | blocked =>
    simp only [List.append_nil]
    split
    · next c commands hcs =>
      have hcol := h.collect hcs
      rwa [hpc] at hcol
    · exact h
  | collecting collected =>
    simp only [List.append_nil]
    split
    · next c commands hcs =>
      have hcol := h.collect hcs
      rwa [hpc] at hcol
    · exact h.congr rfl rfl rfl (by rw [hpc]; rfl)
  | processing commands hasUpdates shouldShutdown =>
    simp only [List.append_nil]
    cases commands with
    | cons c commands => exact h.process hawake hpc
    | nil =>
      cases hasUpdates with
      | true =>
        -- a cycle is to follow, and the removals that were deferred come before it
        have hd := Engine.shrinks_drainPendingRemovals t.engine
        exact h.congr hd.sourceRx (congrArg AsyncManager.resultRx hd.asyncManager) rfl
          (by rw [hpc]; rfl)
      | false => exact h.congr rfl rfl rfl (by rw [hpc]; cases shouldShutdown <;> rfl)
  | sending outbox replies commands hasUpdates shouldShutdown =>
    simp only [List.append_nil]
    cases outbox with
    | cons msg outbox => exact h.send msg rfl rfl rfl rfl (by rw [hpc]; rfl)
    | nil =>
      simp only [List.append_nil]
      exact h.congr rfl rfl rfl (by rw [hpc]; rfl)
  | drainingSources updated shouldShutdown =>
    simp only [List.append_nil]
    cases hrx : t.engine.graph.sourceRx with
    | nil =>
      simp only [List.head?_nil, Option.toList_none, List.append_nil]
      exact h.congr rfl rfl rfl (by rw [hpc]; rfl)
    | cons msg sourceRx =>
      -- the head of the channel moves from what waits to what was drained
      obtain ⟨⟨viaBridge, viaCommand, hinter, hb, hd⟩, hr⟩ := h
      refine ⟨⟨viaBridge, viaCommand, ?_, hb, ?_⟩, hr⟩
      · rw [hrx, List.append_cons] at hinter
        exact hinter
      · rw [hd, hpc]
        rfl
  | drainingResults updated rs shouldShutdown =>
    simp only [List.append_nil]
    cases hrx : t.engine.asyncManager.resultRx with
    | nil =>
      simp only [List.head?_nil, Option.toList_none, List.append_nil]
      exact h.congr rfl rfl rfl (by rw [hpc]; rfl)
    | cons result resultRx =>
      obtain ⟨⟨viaBridge, viaCommand, hinter, hb, hd⟩, hr⟩ := h
      refine ⟨⟨viaBridge, viaCommand, hinter, hb, ?_⟩, ?_⟩
      · rw [hd, hpc]
        rfl
      · rw [hr, hrx, List.append_cons]
        rfl
  | completing completed' updated rs shouldShutdown =>
    simp only [List.append_nil]
    cases completed' with
    | cons id completed' =>
      exact h.congr rfl (AsyncManager.SameSends.processCompletion _ id).resultRx rfl
        (by rw [hpc]; rfl)
    | nil => exact h.execute o hpc
  | spawning spawns metrics shouldShutdown =>
    simp only [List.append_nil]
    cases spawns with
    | cons s spawns =>
      exact h.congr rfl (AsyncManager.SameSends.spawn _ _ _ _ _).resultRx rfl (by rw [hpc]; rfl)
    | nil => exact h.congr rfl rfl rfl (by rw [hpc]; cases shouldShutdown <;> rfl)
  | stopped => simpa only [List.append_nil] using h

theorem Arriving.bridgeStep (h : t.Arriving bridged direct sources completed results) :
    t.bridgeStep.Arriving bridged direct sources completed results := by
  unfold Threads.bridgeStep
  cases hpc : t.bridge with
  | blocked =>
    cases hrx : t.bridgeRx with
    | nil => exact h
    | cons msg bridgeRx => exact h.congr rfl rfl (by rw [hpc, hrx]; rfl) rfl
  | forwarding msg =>
    obtain ⟨⟨viaBridge, viaCommand, hinter, hb, hd⟩, hr⟩ := h
    refine ⟨⟨viaBridge ++ [msg], viaCommand, ?_, ?_, hd⟩, hr⟩
    · rw [← List.append_assoc]
      exact hinter.left msg
    · rw [hb, hpc]
      simp [BridgePc.held]
  | notifying =>
    exact h.postSilent .sourceReady rfl rfl rfl (by rw [hpc]; rfl) (List.append_assoc _ _ _).symm

theorem Arriving.completeStep (h : t.Arriving bridged direct sources completed results)
    (id : TaskId) : (t.completeStep id).Arriving bridged direct sources
      (completed ++ t.completes (.complete id)) results := by
  unfold Threads.completeStep completes
  obtain ⟨hsources, hr⟩ := h
  refine ⟨hsources, ?_⟩
  simp only [AsyncManager.complete, hr]
  cases t.engine.asyncManager.runtime.find id with
  | none => simp
  | some task => simp

theorem Arriving.notifyStep (h : t.Arriving bridged direct sources completed results) :
    t.notifyStep.Arriving bridged direct sources completed results := by
  unfold Threads.notifyStep
  simp only
  split
  · exact h.postSilent .asyncComplete rfl rfl rfl rfl (List.append_assoc _ _ _).symm
  · exact h

theorem Arriving.apply (h : t.Arriving bridged direct sources completed results)
    (hawake : t.Awake) (m : Move V) :
    (t.apply m).Arriving (bridged ++ t.bridges m) (direct ++ m.directs)
      (sources ++ t.drainsSource m) (completed ++ t.completes m)
      (results ++ t.drainsResult m) := by
  cases m with
  | loop o =>
    simp only [Move.directs, completes, List.append_nil]
    exact h.loopStep hawake o
  | bridge =>
    simp only [bridges, Move.directs, drainsSource, completes, drainsResult, List.append_nil]
    exact h.bridgeStep
  | complete id =>
    simp only [bridges, Move.directs, drainsSource, drainsResult, List.append_nil]
    exact h.completeStep id
  | notify =>
    simp only [bridges, Move.directs, drainsSource, completes, drainsResult, List.append_nil]
    exact h.notifyStep
  | send id value =>
    simp only [bridges, Move.directs, drainsSource, completes, drainsResult, List.append_nil]
    exact h.send (id, value) rfl rfl rfl rfl rfl
  | updateSource id value =>
    simp only [bridges, Move.directs, drainsSource, completes, drainsResult, List.append_nil]
    exact h.post (.sourceUpdate id value) rfl rfl rfl (List.append_assoc _ _ _).symm
  | merge subgraph reply =>
    simp only [bridges, Move.directs, drainsSource, completes, drainsResult, List.append_nil]
    exact h.postSilent (.merge subgraph reply) rfl rfl rfl rfl (List.append_assoc _ _ _).symm
  | dropHandle nodeIds =>
    simp only [bridges, Move.directs, drainsSource, completes, drainsResult, List.append_nil,
      Threads.apply]
    split
    · exact h
    · exact h.postSilent (.remove nodeIds) rfl rfl rfl rfl (List.append_assoc _ _ _).symm
  | shutdown =>
    simp only [bridges, Move.directs, drainsSource, completes, drainsResult, List.append_nil]
    exact h.postSilent .shutdown rfl rfl rfl rfl (List.append_assoc _ _ _).symm

theorem arriving_run (ms : List (Move V)) :
    (run ms).Awake ∧ (run ms).Arriving (Runs.trace apply bridges init ms)
      (ms.flatMap Move.directs) (Runs.trace apply drainsSource init ms)
      (Runs.trace apply completes init ms) (Runs.trace apply drainsResult init ms) := by
  induction ms using List.reverseRecOn with
  | nil => exact ⟨.init, .init⟩
  | append_singleton ms m ih =>
    rw [run, Runs.run_append, List.flatMap_append, List.flatMap_singleton]
    simp only [Runs.trace_snoc]
    exact ⟨ih.1.apply m, ih.2.apply ih.1 m⟩

/-- **Everything arrives, in order**, whatever the parties do: the values of the bridge and those of
the commands are drained as an interleaving of the two, each in the order they were sent, and
results in the order in which the tasks completed. There is no hypothesis on the moves, and the
statement is about every state of every run, since each is the end of one.

The invariant `Arriving` keeps the two ways apart and accounts for what is still in a channel, in
the bridge or in a command. How the two ways interleave is up to the threads, and is left open. -/
theorem arrives_in_order (ms : List (Move V)) :
    (run ms).Arriving (Runs.trace apply bridges init ms) (ms.flatMap Move.directs)
      (Runs.trace apply drainsSource init ms) (Runs.trace apply completes init ms)
      (Runs.trace apply drainsResult init ms) := (arriving_run ms).2

end Threads

end ReactiveGraph
