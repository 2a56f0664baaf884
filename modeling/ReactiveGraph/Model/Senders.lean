import ReactiveGraph.Model.Threads

/-!
# Who holds a command sender

`recv` fails when the channel is empty and nobody is left who could send on it, and that is how the
loop is to end when no one has asked it to. So it matters who holds a clone of the command sender,
and when the clone is dropped: this module puts beside the threads what the parties own. Clients
clone and drop their handles; a handle is borrowed while one of its merges waits for the reply. A
source's `Sender` holds the bridge channel open, and through the bridge thread the command channel.

What the graph owns goes with the engine, when the loop stops: the `Sender`s that activation
callbacks left in it, the graph's own sender, the async manager's notifier.

**Counted, not named.** Which of two clones is dropped makes no difference, so the model has their
number. Handles, merges that wait, and `Sender`s are counts; only the remote handles are a list,
since dropping one sends the ids it holds. A step that would need a clone nobody has does nothing,
and so does one whose party is gone.

The two senders that the loop makes for itself are in `commandSenders` as what they became: the
bridge thread's, for as long as that thread runs, and the notifier of the async manager, for as long
as the engine does. Both are there from the start, and whether the loop can ever end without being
asked depends on them (`Proof/Exit.lean`).

Blocking is not modelled as a wait. A party whose channel is empty takes a step that changes
nothing, so a run in which it is never scheduled again and one in which it waits forever are alike.
-/

namespace ReactiveGraph

variable {V : Type*}

/-- In `recv`. -/
def LoopPc.isBlocked : LoopPc V → Bool
  | .blocked => true
  | _ => false

def LoopPc.isStopped : LoopPc V → Bool
  | .stopped => true
  | _ => false

/-- In the middle of a `Merge` command, the only one that activates. -/
def LoopPc.isActivating : LoopPc V → Bool
  | .sending _ (_ :: _) _ _ _ => true
  | _ => false

/-- An engine that `start_engine` has started, and what there is of handles and senders. `asked` is
there to say of a run that it was, or was not, told to stop. -/
structure Started (V : Type*) where
  threads : Threads V
  /-- The `EngineHandle`s. -/
  handles : ℕ
  /-- The calls of `EngineHandle::merge` that wait for the reply. -/
  merging : ℕ
  /-- The node lists of the `RemoteSubgraphHandle`s. -/
  remotes : List (List NodeId)
  /-- The `Sender`s of sources that are not in the graph. -/
  sourceSenders : ℕ
  /-- Whether the bridge thread is there. -/
  bridgeRuns : Bool
  /-- Whether `EngineHandle::shutdown` has been called. Not in the source. -/
  asked : Bool

/-- One step of a thread, of a task, or of a client that uses what it holds. The first four are
those of the threads alone; the rest need a handle, a `Sender`, or an activation that is under
way. -/
inductive Act (V : Type*) where
  /-- The loop's thread takes a step; `o` is how it walks hash sets in it. -/
  | loop (o : CycleOrder)
  | bridge
  /-- A running task sends its result. -/
  | complete (task : TaskId)
  /-- A task that has sent its result sends `AsyncComplete`. -/
  | notify
  | cloneHandle
  /-- The drop of an `EngineHandle`. -/
  | dropHandle
  | updateSource (id : NodeId) (value : V)
  | shutdown
  /-- `EngineHandle::merge`, up to the wait for the reply. -/
  | merge (subgraph : Subgraph V) (reply : ℕ)
  /-- The rest of a merge, which takes the reply at a position. -/
  | merged (i : ℕ)
  /-- The rest of a merge whose command was dropped with the command channel. -/
  | unanswered
  /-- The drop of the `RemoteSubgraphHandle` at a position. -/
  | dropRemote (i : ℕ)
  /-- An activation callback gives away a `Sender`. -/
  | handOut
  | cloneSender
  | dropSender
  | send (id : NodeId) (value : V)

namespace Started

/-- `start_engine`. -/
def init : Started V := ⟨.init, 1, 0, [], 0, true, false⟩

/-- The clones of the command sender: with the handles, with the bridge thread, in the notifier of
the async manager, and with the tasks that have not made their second send. A remote handle has one
of its own, so that its drop can send. -/
def commandSenders (s : Started V) : ℕ :=
  let m := s.threads.engine.asyncManager
  s.handles + s.remotes.length + s.bridgeRuns.toNat +
    (m.notifier && !s.threads.loop.isStopped).toNat +
      (m.runtime.running.filter Task.notifies).length + m.runtime.notifying

/-- The clones of the bridge's sender: the graph's own, and the `Sender`s. Those that callbacks left
in the graph count with the graph's own, since they go at the same moment. -/
def bridgeSenders (s : Started V) : ℕ := (!s.threads.loop.isStopped).toNat + s.sourceSenders

/-- The loop's `recv` returns `Err`: it is waiting, nothing is there, and nobody can send. -/
def RecvFails (s : Started V) : Prop :=
  s.threads.loop.isBlocked ∧ s.threads.commands.isEmpty ∧ s.commandSenders = 0

instance (s : Started V) : Decidable s.RecvFails := inferInstanceAs (Decidable (_ ∧ _))

/-- The bridge thread's `recv` returns `Err`, and the thread ends with what it held. -/
def BridgeRecvFails (s : Started V) : Prop :=
  (s.threads.bridge matches .blocked) ∧ s.threads.bridgeRx.isEmpty ∧ s.bridgeSenders = 0

instance (s : Started V) : Decidable s.BridgeRecvFails := inferInstanceAs (Decidable (_ ∧ _))

/-- What an action does. What cannot be done, because nobody has what it takes, does nothing. -/
def apply (s : Started V) : Act V → Started V
  | .loop o =>
    if s.RecvFails then { s with threads := { s.threads with loop := .stopped } }
    else { s with threads := s.threads.loopStep o }
  | .bridge =>
    if s.bridgeRuns then
      if s.BridgeRecvFails then { s with bridgeRuns := false }
      else { s with threads := s.threads.bridgeStep }
    else s
  | .complete task => { s with threads := s.threads.completeStep task }
  | .notify => { s with threads := s.threads.notifyStep }
  | .cloneHandle => if 0 < s.handles then { s with handles := s.handles + 1 } else s
  | .dropHandle =>
    -- the last handle cannot be dropped while a merge borrows it
    if s.merging = 0 ∨ 1 < s.handles then { s with handles := s.handles - 1 } else s
  | .updateSource id value =>
    if 0 < s.handles then { s with threads := s.threads.apply (.updateSource id value) } else s
  | .shutdown =>
    if 0 < s.handles then { s with threads := s.threads.apply .shutdown, asked := true } else s
  | .merge subgraph reply =>
    if 0 < s.handles then
      { s with threads := s.threads.apply (.merge subgraph reply), merging := s.merging + 1 }
    else s
  | .merged i =>
    match s.threads.replies[i]? with
    | some (_, nodeIds) =>
      { s with
        threads := { s.threads with replies := s.threads.replies.eraseIdx i }
        merging := s.merging - 1
        remotes := s.remotes ++ [nodeIds] }
    | none => s
  | .unanswered =>
    -- `reply_rx.recv().unwrap_or_default()`
    if s.threads.loop.isStopped ∧ s.threads.replies.length < s.merging then
      { s with merging := s.merging - 1, remotes := s.remotes ++ [[]] }
    else s
  | .dropRemote i =>
    match s.remotes[i]? with
    | some nodeIds =>
      { s with
        threads := s.threads.apply (.dropHandle nodeIds)
        remotes := s.remotes.eraseIdx i }
    | none => s
  | .handOut =>
    -- a callback has its `Sender` only while a merge activates
    if s.threads.loop.isActivating then { s with sourceSenders := s.sourceSenders + 1 } else s
  | .cloneSender =>
    if 0 < s.sourceSenders then { s with sourceSenders := s.sourceSenders + 1 } else s
  | .dropSender => { s with sourceSenders := s.sourceSenders - 1 }
  | .send id value =>
    if 0 < s.sourceSenders then { s with threads := s.threads.apply (.send id value) } else s

/-- Where a run from `start_engine` ends. -/
def run (as : List (Act V)) : Started V := Runs.run apply init as

end Started

end ReactiveGraph
