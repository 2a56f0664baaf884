import ReactiveGraph.Model.EventLoop
import ReactiveGraph.Model.World

/-!
# Calls, one by one

A `World` drops a handle and drains the removal queue in one step. Between the two a program, or the
event loop, may do anything else, and some things go wrong only there. A `Call` is one step of the
finest grain that a single-threaded user of the engine can tell apart: what a handle's drop leaves
in the queue waits there for the next call that drains it, a `Remove` command for the loop, and a
value in the bridge channel for the bridge thread.

The engine of an event loop is a new engine with a bridge put in front of its source channel and a
notifier for its tasks (`interpose`); everything the loop does to it afterwards is a run of these
calls as well (`Session.exists_calls_iterate`). So one theorem about every list of calls speaks of
an engine used directly and of one that has been started, and the invariants of the registry, the
topology and the counts are proved at this grain.

The calls are more than either user can make. A program cannot take a `Remove` command itself, the
loop cannot call `graph`, and nobody puts a bridge in front twice; a run may mix all of them. A
theorem over all runs covers those that can happen, and where a result needs more, a hypothesis
names the calls it excludes.

`update` and `forward` write to the source channel past the bridge, as the loop's own `source_tx`
and the bridge thread do. `register` is the `build` of a builder alone: the call of `graph()` that
gave the program its reference came before, as a call of its own, and anything the reference's
lifetime allows may lie between them.
-/

namespace ReactiveGraph

variable {V : Type*}

/-- An engine, and what the program around it holds. The `Remove` commands are kept in the order in
which they were sent, which is the order in which the loop takes them; other commands hold nothing
that is owed and are not kept. -/
structure Session (V : Type*) where
  engine : Engine V
  /-- The handles not yet dropped, of subgraphs merged directly or through an `EngineHandle`. -/
  handles : List SubgraphHandle
  /-- The node lists of the `Remove` commands sent and not processed yet. -/
  removes : List (List NodeId)

/-- One step of a user of the engine, of the loop around it, of the bridge thread, or of a task. -/
inductive Call (V : Type*) where
  /-- `Engine::graph`. -/
  | graph
  /-- The `build` of a builder, on a graph it was given. -/
  | register (desc : NodeDescriptor V)
  /-- A subgraph is built from the listed nodes and merged. -/
  | merge (descs : List (NodeDescriptor V))
  /-- The drop of the `SubgraphHandle` at a position. -/
  | dropHandle (i : ℕ)
  /-- The drop of the `RemoteSubgraphHandle` at a position. -/
  | dropRemote (i : ℕ)
  /-- The loop takes the next `Remove` command. -/
  | remove
  | deactivateNode (id : NodeId)
  | activateSink (id : NodeId)
  | setErrorStrategy (id : NodeId) (strategy : ErrorStrategy)
  | concurrencyGroup (maxConcurrent : ℕ)
  /-- A new engine is set up for the event loop. -/
  | interpose
  /-- `Sender::send`. -/
  | send (id : NodeId) (value : V)
  /-- The loop takes a `SourceUpdate` command. -/
  | update (id : NodeId) (value : V)
  /-- The bridge thread takes the next value. -/
  | forward
  /-- A running task completes. -/
  | complete (task : TaskId)
  | runCycle (o : CycleOrder)
  | runCycleParallel (o : CycleOrder)

namespace Engine

/-- `source_tx.send((id, value))` of the loop's own `source_tx`, past the bridge. -/
def update (e : Engine V) (id : NodeId) (value : V) : Engine V :=
  { e with graph := { e.graph with sourceRx := e.graph.sourceRx ++ [(id, value)] } }

/-- The bridge thread receives a value and forwards it; when nothing waits it goes on waiting. -/
def forward (e : Engine V) : Engine V :=
  match e.graph.bridge with
  | some (msg :: waiting) =>
    { e with
      graph := { e.graph with sourceRx := e.graph.sourceRx ++ [msg], bridge := some waiting } }
  | _ => e

/-- The start of `run_event_loop`. What waited in the source channel before stays there, since only
the sender is replaced. -/
def interpose (e : Engine V) : Engine V :=
  { e with
    graph := { e.graph with bridge := some [] }
    asyncManager := e.asyncManager.setNotifier }

end Engine

namespace Session

def init : Session V := ⟨.new, [], []⟩

/-- What a call does. Dropping a handle that is not there does nothing, and taking a command that
was not sent does nothing. -/
def apply (s : Session V) : Call V → Session V
  | .graph => { s with engine := s.engine.drainPendingRemovals }
  | .register desc => { s with engine := s.engine.registerAll [desc] }
  | .merge descs =>
    let (engine, handle) := s.engine.merge (SubgraphBuilder.ofList descs)
    { s with engine := engine, handles := s.handles ++ [handle] }
  | .dropHandle i =>
    match s.handles[i]? with
    | some handle =>
      { s with engine := s.engine.dropHandle handle, handles := s.handles.eraseIdx i }
    | none => s
  | .dropRemote i =>
    match s.handles[i]? with
    | some handle =>
      { s with
        handles := s.handles.eraseIdx i
        -- a handle without nodes sends no command
        removes := if handle.nodeIds = [] then s.removes else s.removes ++ [handle.nodeIds] }
    | none => s
  | .remove =>
    match s.removes with
    | nodeIds :: removes => { s with engine := s.engine.release nodeIds, removes := removes }
    | [] => s
  | .deactivateNode id => { s with engine := s.engine.deactivate id }
  | .activateSink id => { s with engine := s.engine.activateSink id }
  | .setErrorStrategy id strategy => { s with engine := s.engine.setErrorStrategy id strategy }
  | .concurrencyGroup n => { s with engine := (s.engine.concurrencyGroup n).1 }
  | .interpose => { s with engine := s.engine.interpose }
  | .send id value => { s with engine := s.engine.send id value }
  | .update id value => { s with engine := s.engine.update id value }
  | .forward => { s with engine := s.engine.forward }
  | .complete task => { s with engine := s.engine.complete task }
  | .runCycle o => { s with engine := s.engine.runCycle o }
  | .runCycleParallel o => { s with engine := s.engine.runCycleParallel o }

/-- Where a run from a new engine ends. -/
def run (calls : List (Call V)) : Session V := Runs.run apply init calls

end Session

end ReactiveGraph
