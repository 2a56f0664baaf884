import ReactiveGraph.Lib.Runs
import ReactiveGraph.Model.Subgraph

/-!
# A client and its engine

A program that uses the engine does nothing to it but call its public methods, hold the handles that
`merge` returns, drop them, and send values into sources; and the tasks the engine has started
complete when they complete. An `Action` is one such step, and a list of actions is a run: theorems
about every program are theorems about every list, with conditions on the actions where a result is
about some programs only.

A handle is dropped and the removal queue drained in one step (`World.apply`). In the source the
drop only puts the handle's nodes on the queue, and the next public method drains it, if it is one
that does (`World.applyDeferred`). `Proof/Deferral.lean` proves when that makes a difference.

**What a run can do that a program cannot.** An action may name any id: a value may be sent to a
node for which no `Sender` was ever made, a sink activated that is a source. Nothing is gained by
forbidding it, since the methods themselves do not check. What a compiler forbids, dropping a handle
twice, the list of handles forbids: a drop takes the handle away.

**What it cannot do.** The engine has no event loop here, so tasks do not notify and values are not
bridged; a task that is aborted is stopped at once (`AsyncCompute.lean`). A callback that sends to a
source from inside a cycle is a `send` after the cycle, which it cannot be told apart from: the
cycle does not look at the channel again once it has drained it.
-/

namespace ReactiveGraph

variable {V : Type*}

/-- A handle that a client holds. The subgraph is what was merged for it; nothing reads it, and it is
there to say what the handle is held for. -/
structure Holding (V : Type*) where
  handle : SubgraphHandle
  subgraph : Subgraph V

/-- An engine, and the handles of a client. One client is enough: the engine cannot be shared
between threads, and who of several parts of a program holds a handle makes no difference. -/
structure World (V : Type*) where
  engine : Engine V
  /-- The handles not yet dropped. -/
  handles : List (Holding V)

/-- One step of a client, or of the tasks it has caused to be started. -/
inductive Action (V : Type*) where
  /-- A node is built into the engine's graph directly. -/
  | register (desc : NodeDescriptor V)
  /-- A subgraph is built from the listed nodes and merged. -/
  | merge (descs : List (NodeDescriptor V))
  /-- The handle at a position is dropped, and the removal queue drained. -/
  | drop (i : ℕ)
  | activateSink (id : NodeId)
  | setErrorStrategy (id : NodeId) (strategy : ErrorStrategy)
  | concurrencyGroup (maxConcurrent : ℕ)
  /-- A value is sent into a source. -/
  | send (id : NodeId) (value : V)
  /-- A running task completes. -/
  | complete (task : TaskId)
  | runCycle (o : CycleOrder)
  | runCycleParallel (o : CycleOrder)

namespace Engine

/-- `engine.graph()`, followed by the registration of one node. It is the way for an async node to
come into the graph. -/
def register (e : Engine V) (desc : NodeDescriptor V) : Engine V :=
  e.drainPendingRemovals.registerAll [desc]

/-- `source_tx.send((id, value))` of a sender the client holds. -/
def send (e : Engine V) (id : NodeId) (value : V) : Engine V :=
  { e with graph := e.graph.sendSource id value }

def complete (e : Engine V) (task : TaskId) : Engine V :=
  { e with asyncManager := e.asyncManager.complete task }

end Engine

namespace World

def init : World V := ⟨.new, []⟩

/-- What a step does. Dropping a handle that is not there does nothing. -/
def apply (w : World V) : Action V → World V
  | .register desc => { w with engine := w.engine.register desc }
  | .merge descs =>
    let subgraph := SubgraphBuilder.ofList descs
    let (engine, handle) := w.engine.merge subgraph
    ⟨engine, w.handles ++ [⟨handle, subgraph⟩]⟩
  | .drop i =>
    match w.handles[i]? with
    | some held =>
      ⟨(w.engine.dropHandle held.handle).drainPendingRemovals, w.handles.eraseIdx i⟩
    | none => w
  | .activateSink id => { w with engine := w.engine.activateSink id }
  | .setErrorStrategy id strategy => { w with engine := w.engine.setErrorStrategy id strategy }
  | .concurrencyGroup n => { w with engine := (w.engine.concurrencyGroup n).1 }
  | .send id value => { w with engine := w.engine.send id value }
  | .complete task => { w with engine := w.engine.complete task }
  | .runCycle o => { w with engine := w.engine.runCycle o }
  | .runCycleParallel o => { w with engine := w.engine.runCycleParallel o }

/-- The same with drops as they are: the nodes wait in the queue for the next method that drains it.
Every other step is as in `apply`, and drains or not as the method does. -/
def applyDeferred (w : World V) : Action V → World V
  | .drop i =>
    match w.handles[i]? with
    | some held => ⟨w.engine.dropHandle held.handle, w.handles.eraseIdx i⟩
    | none => w
  | a => w.apply a

/-- Where a run from a new engine ends. There is no other start: every engine of a program was new
once. -/
def run (as : List (Action V)) : World V := Runs.run apply init as

def runDeferred (as : List (Action V)) : World V := Runs.run applyDeferred init as

end World

end ReactiveGraph
