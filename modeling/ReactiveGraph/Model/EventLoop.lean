import ReactiveGraph.Model.Subgraph

/-!
# The event loop

The engine on its own thread. An iteration blocks for a first command, takes whatever else is in the
channel, processes the commands in order, and then runs one cycle if any of them was about updates.
`SourceUpdate` goes straight to the graph's source channel; everything a source's `Sender` sends
goes through the bridge channel that the loop puts in front of it.

The loop is here in one piece: a batch of commands is an argument, and an iteration is a function of
it. What the batches are made of, and what the other threads do while one is processed, is in
`Threads.lean`, whose loop takes the same commands through the same `handle` one step at a time.
Results about the loop alone, such as that it does not matter how the commands are cut into batches,
are stated of `runEventLoop`; results about what becomes of a value that is sent are stated of the
threads.

A command of the loop does not drain the removal queue, except through `activate_sink`: nothing is
ever on the queue of an engine that has been started, since its handles send `Remove` commands
instead (`Proof/Balance.lean`).

A shutdown does not cut its batch short. The commands after it are processed, the cycle is run, and
then the loop stops.
-/

namespace ReactiveGraph

variable {V : Type*}

/-- Commands sent to the engine event loop. `reply` names the channel a merge is answered on; the
source makes a new one for each call, and so does whoever makes the commands here. -/
inductive Command (V : Type*) where
  | sourceUpdate (id : NodeId) (value : V)
  | merge (subgraph : Subgraph V) (reply : ℕ)
  | remove (nodeIds : List NodeId)
  /-- An async computation completed. -/
  | asyncComplete
  /-- A source value arrived. -/
  | sourceReady
  | shutdown

/-- What one iteration carries from command to command, and the replies it sends on the way. -/
structure Iteration (V : Type*) where
  engine : Engine V
  replies : List (ℕ × List NodeId)
  hasUpdates : Bool
  shouldShutdown : Bool

namespace EventLoop

/-- The engine as the loop sets it up: a bridge in front of the source channel, and a notifier for
async tasks. From here on every task that is started notifies. -/
def start : Engine V :=
  { Engine.new with
    graph := { Graph.new with bridge := some [] }
    asyncManager := AsyncManager.new.setNotifier }

/-- Process one command. Merging is written out in the loop, without the handle that `Engine::merge`
makes; removing is the loop over a dropped handle's nodes. -/
def handle (s : Iteration V) : Command V → Iteration V
  | .sourceUpdate id value =>
    { s with
      engine :=
        { s.engine with
          graph :=
            { s.engine.graph with sourceRx := s.engine.graph.sourceRx ++ [(id, value)] } }
      hasUpdates := true }
  | .sourceReady => { s with hasUpdates := true }
  -- the reply is the list of ids, which the client makes a handle of
  | .merge subgraph reply =>
    { s with
      engine := subgraph.nodeIds.foldl Engine.activateIfSink
        (s.engine.registerAll subgraph.descriptors)
      replies := s.replies ++ [(reply, subgraph.nodeIds)] }
  | .remove nodeIds => { s with engine := s.engine.release nodeIds }
  | .asyncComplete => { s with hasUpdates := true }
  | .shutdown => { s with shouldShutdown := true }

/-- The commands of one iteration, in order. -/
def handleAll (e : Engine V) (commands : List (Command V)) : Iteration V :=
  commands.foldl handle ⟨e, [], false, false⟩

/-- One iteration, from the batch of commands it collected to the end of its cycle. However many of
the commands were about updates, there is one cycle. -/
def iterate (o : CycleOrder) (e : Engine V) (commands : List (Command V)) : Engine V :=
  let s := handleAll e commands
  if s.hasUpdates then s.engine.runCycle o else s.engine

/-- The loop, from batch to batch; each comes with the walks of its cycle. How the channel is cut
into batches is a matter of timing. The list ends where the run is looked at, or with the batch that
has a shutdown in it. -/
def runEventLoop : Engine V → List (CycleOrder × List (Command V)) → Engine V
  | e, [] => e
  | e, (o, commands) :: batches =>
    if (handleAll e commands).shouldShutdown then iterate o e commands
    else runEventLoop (iterate o e commands) batches

end EventLoop

end ReactiveGraph
