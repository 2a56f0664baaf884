import Mathlib.Algebra.Order.Group.Multiset
import ReactiveGraph.Lib.Runs
import ReactiveGraph.Model.EventLoop

/-!
# The threads of a started engine

`start_engine` puts the engine on a thread of its own, which runs the event loop, and starts a
second one, the bridge. With the async tasks, the `Sender`s and the clients that hold an
`EngineHandle` these are the parties; they share nothing but channels. A `Move` is one step of one
party, and a list of moves is an interleaving.

**The grain.** Whatever a party does to a channel is a move by itself: a `recv` or `try_recv` that
takes one message or finds none, one `send`. What the loop's thread does in between — process a
command, execute the dirty nodes — touches no channel and is part of the move before. The one
exception in the source is activation, whose callbacks send while the engine walks the graph; what
they send during one command is collected in the engine's `bridge`, and the loop then sends it
message by message (`sending`) before it goes on.

`sent` and `drained` are not in the source. They record every value put on its way, by a `Sender`, a
callback, a client or a task, and every value a cycle has taken out of a channel.

**A stopped loop.** In the source the engine and the receiving ends go when the loop returns, with
whatever was in the channels, and later sends fail without a word. Here they stay as they were, and
what is sent later is appended to a list that nobody reads. A result about a stopped loop says what
was processed before it stopped; that something is still in a channel then says that it was never
looked at.

**Aborted tasks.** An abort stops its task at once, as in `AsyncCompute.lean`, and there is no move
by which an aborted task makes its last two sends. A started engine would not use one: its nodes
come out of subgraphs, which hold no async nodes, so its manager never has a task to abort
(`Proof/Registered.lean` proves it of every run whose merges are such). Where tasks are aborted,
runs are those of `PolledSystem`.

Channels are lists without a bound, and time is not modelled: a move that is due may be delayed for
as long as one likes, unless a result asks for a fair schedule.
-/

namespace ReactiveGraph

variable {V : Type*}

/-- Where the loop's thread is. What a constructor carries are the local variables of the loop at
that point; `updated` are the ids drained so far, with repetitions. -/
inductive LoopPc (V : Type*) where
  /-- In `recv`. -/
  | blocked
  /-- In the loop of `try_recv`, with the commands collected so far. -/
  | collecting (commands : List (Command V))
  /-- In the loop over the commands, with those that are left. -/
  | processing (commands : List (Command V)) (hasUpdates shouldShutdown : Bool)
  /-- In the same loop, in the middle of a command: its callbacks are sending, and the reply is to
  follow. -/
  | sending (outbox : List (NodeId × V)) (replies : List (ℕ × List NodeId))
      (commands : List (Command V)) (hasUpdates shouldShutdown : Bool)
  /-- In a cycle, draining source updates. -/
  | drainingSources (updated : List NodeId) (shouldShutdown : Bool)
  /-- In a cycle, draining async results. -/
  | drainingResults (updated : List NodeId) (results : List (NodeId × V)) (shouldShutdown : Bool)
  /-- In a cycle, processing the completions of the drained results. -/
  | completing (completed updated : List NodeId) (results : List (NodeId × V))
      (shouldShutdown : Bool)
  /-- In a cycle, spawning the futures that the execution returned. -/
  | spawning (spawns : List (AsyncSpawn V)) (metrics : CycleMetrics) (shouldShutdown : Bool)
  | stopped

/-- Where the bridge thread is. It holds one message at a time, between its `recv` and the first of
its two sends. -/
inductive BridgePc (V : Type*) where
  /-- In `recv`. -/
  | blocked
  | forwarding (msg : NodeId × V)
  | notifying

/-- A started engine between two moves: the two threads, their channels, and the replies that
clients have not taken yet. The source channel and the result channel are the engine's own. -/
structure Threads (V : Type*) where
  engine : Engine V
  loop : LoopPc V
  /-- Sent on the command channel and not received yet. -/
  commands : List (Command V)
  bridge : BridgePc V
  /-- Sent on the bridge channel and not received yet. -/
  bridgeRx : List (NodeId × V)
  replies : List (ℕ × List NodeId)
  sent : Multiset (NodeId × V)
  drained : Multiset (NodeId × V)

/-- One step of one party. A move is always possible; one whose party has nothing to do changes
nothing. -/
inductive Move (V : Type*) where
  /-- The loop's thread takes a step; `o` is how it walks hash sets in it. -/
  | loop (o : CycleOrder)
  | bridge
  /-- A running task sends its result. -/
  | complete (task : TaskId)
  /-- A task that has sent its result sends `AsyncComplete`. -/
  | notify
  /-- `Sender::send`. -/
  | send (id : NodeId) (value : V)
  /-- `EngineHandle::update_source`. -/
  | updateSource (id : NodeId) (value : V)
  /-- `EngineHandle::merge`, up to the wait for the reply. -/
  | merge (subgraph : Subgraph V) (reply : ℕ)
  /-- The drop of a `RemoteSubgraphHandle`. -/
  | dropHandle (nodeIds : List NodeId)
  /-- `EngineHandle::shutdown`. -/
  | shutdown

namespace Threads

def init : Threads V := ⟨EventLoop.start, .blocked, [], .blocked, [], [], 0, 0⟩

/-! ## The loop's thread -/

/-- The end of an iteration. -/
def nextPc (shouldShutdown : Bool) : LoopPc V := if shouldShutdown then .stopped else .blocked

/-- Process one command. What activation callbacks send is left to be sent; the reply to a merge
follows it. -/
def process (t : Threads V) (command : Command V) (commands : List (Command V))
    (hasUpdates shouldShutdown : Bool) : Threads V :=
  let s := EventLoop.handle ⟨t.engine, [], hasUpdates, shouldShutdown⟩ command
  { t with
    engine := { s.engine with graph := { s.engine.graph with bridge := some [] } }
    loop := .sending (s.engine.graph.bridge.getD []) s.replies commands s.hasUpdates
      s.shouldShutdown }

/-- The part of a cycle between the drains and the spawns. Results are written after all completions
have been processed, as in the source, and nodes are run without a look at any channel. -/
def execute (o : CycleOrder) (t : Threads V) (updated : List NodeId)
    (results : List (NodeId × V)) (shouldShutdown : Bool) : Threads V :=
  let e := t.engine.setStore (Engine.receive t.engine.graph.valueStore results)
  let updatedSources := (updated ++ results.map Prod.fst).toFinset
  -- nothing came, and the iteration ends without a cycle being counted
  if updatedSources = ∅ then { t with engine := e, loop := nextPc shouldShutdown }
  else
    let sorted := e.topology.topoSort o.dirty (e.topology.dirtySet o.sources updatedSources)
    let p := e.executeSequentialWithAsync sorted
    { t with
      engine := p.engine
      loop := .spawning p.spawns ⟨e.metrics.totalCycles + 1, sorted.length, p.timed⟩
        shouldShutdown }

/-- One step of the loop's thread, by where it is. Each case is one operation on a channel and what
follows it up to the next. -/
def loopStep (o : CycleOrder) (t : Threads V) : Threads V :=
  match t.loop with
  | .blocked =>
    match t.commands with
    | command :: commands => { t with commands := commands, loop := .collecting [command] }
    | [] => t
  | .collecting collected =>
    match t.commands with
    | command :: commands =>
      { t with commands := commands, loop := .collecting (collected ++ [command]) }
    | [] => { t with loop := .processing collected false false }
  | .processing (command :: commands) hasUpdates shouldShutdown =>
    t.process command commands hasUpdates shouldShutdown
  -- the removals are drained before the sources, as at the head of `run_cycle`
  | .processing [] true shouldShutdown =>
    { t with
      engine := t.engine.drainPendingRemovals
      loop := .drainingSources [] shouldShutdown }
  | .processing [] false shouldShutdown => { t with loop := nextPc shouldShutdown }
  | .sending (msg :: outbox) replies commands hasUpdates shouldShutdown =>
    { t with
      bridgeRx := t.bridgeRx ++ [msg]
      sent := msg ::ₘ t.sent
      loop := .sending outbox replies commands hasUpdates shouldShutdown }
  | .sending [] replies commands hasUpdates shouldShutdown =>
    { t with
      replies := t.replies ++ replies
      loop := .processing commands hasUpdates shouldShutdown }
  | .drainingSources updated shouldShutdown =>
    match t.engine.graph.sourceRx with
    | msg :: sourceRx =>
      { t with
        engine :=
          { t.engine with
            graph :=
              { t.engine.graph with
                sourceRx := sourceRx
                valueStore := t.engine.graph.valueStore.setById msg.1 msg.2 } }
        drained := msg ::ₘ t.drained
        loop := .drainingSources (updated ++ [msg.1]) shouldShutdown }
    | [] => { t with loop := .drainingResults updated [] shouldShutdown }
  | .drainingResults updated results shouldShutdown =>
    match t.engine.asyncManager.resultRx with
    | result :: resultRx =>
      { t with
        engine :=
          { t.engine with asyncManager := { t.engine.asyncManager with resultRx := resultRx } }
        drained := result ::ₘ t.drained
        loop := .drainingResults updated (results ++ [result]) shouldShutdown }
    | [] => { t with loop := .completing (results.map Prod.fst) updated results shouldShutdown }
  | .completing (id :: completed) updated results shouldShutdown =>
    { t with
      engine :=
        { t.engine with asyncManager := t.engine.asyncManager.processCompletion id }
      loop := .completing completed updated results shouldShutdown }
  -- all completions are through: now the results are written and the nodes are run
  | .completing [] updated results shouldShutdown => t.execute o updated results shouldShutdown
  | .spawning (s :: spawns) metrics shouldShutdown =>
    { t with
      engine := t.engine.spawnAsyncWork [s]
      loop := .spawning spawns metrics shouldShutdown }
  | .spawning [] metrics shouldShutdown =>
    { t with
      engine := { t.engine with metrics := t.engine.metrics.recordCycle metrics }
      loop := nextPc shouldShutdown }
  | .stopped => t

/-! ## The other parties -/

/-- `recv`, forward to the graph's source channel, notify the loop: three moves for one value,
between which anyone else may move. -/
def bridgeStep (t : Threads V) : Threads V :=
  match t.bridge with
  | .blocked =>
    match t.bridgeRx with
    | msg :: bridgeRx => { t with bridgeRx := bridgeRx, bridge := .forwarding msg }
    | [] => t
  | .forwarding msg =>
    { t with
      engine :=
        { t.engine with
          graph := { t.engine.graph with sourceRx := t.engine.graph.sourceRx ++ [msg] } }
      bridge := .notifying }
  | .notifying => { t with commands := t.commands ++ [.sourceReady], bridge := .blocked }

/-- The first send of a task. A task that does not run, because it has completed or was aborted,
sends nothing. -/
def completeStep (t : Threads V) (task : TaskId) : Threads V :=
  { t with
    engine := { t.engine with asyncManager := t.engine.asyncManager.complete task }
    sent := ((t.engine.asyncManager.runtime.find task).elim 0
      fun task => {(task.nodeId, task.future)}) + t.sent }

/-- The second send of a task. Which of the tasks that owe one it is makes no difference: the
message is the same. -/
def notifyStep (t : Threads V) : Threads V :=
  let m := t.engine.asyncManager
  if 0 < m.runtime.notifying then
    { t with
      engine :=
        { t.engine with
          asyncManager :=
            { m with runtime := { m.runtime with notifying := m.runtime.notifying - 1 } } }
      commands := t.commands ++ [.asyncComplete] }
  else t

/-- A client sends a command. -/
def post (t : Threads V) (command : Command V) : Threads V :=
  { t with commands := t.commands ++ [command] }

def apply (t : Threads V) : Move V → Threads V
  | .loop o => t.loopStep o
  | .bridge => t.bridgeStep
  | .complete task => t.completeStep task
  | .notify => t.notifyStep
  | .send id value =>
    { t with bridgeRx := t.bridgeRx ++ [(id, value)], sent := (id, value) ::ₘ t.sent }
  | .updateSource id value =>
    { t.post (.sourceUpdate id value) with sent := (id, value) ::ₘ t.sent }
  | .merge subgraph reply => t.post (.merge subgraph reply)
  | .dropHandle nodeIds => if nodeIds = [] then t else t.post (.remove nodeIds)
  | .shutdown => t.post .shutdown

/-- Where a run from a new engine ends. -/
def run (ms : List (Move V)) : Threads V := Runs.run apply init ms

end Threads

end ReactiveGraph
