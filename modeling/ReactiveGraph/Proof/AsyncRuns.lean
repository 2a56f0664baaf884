import ReactiveGraph.Lib.Runs
import ReactiveGraph.Proof.AsyncManager

/-!
# Runs of the async manager

The manager on its own, in an environment that does four things in any order: it creates groups,
spawns futures, lets running tasks complete, and drains results. The list of actions is the
interleaving. Two lists are kept beside the manager for the sake of the statements, what was passed
to `spawn` and what came out of `drainResults`, each in order.

An action that cannot happen — a task completing that is not running — changes nothing, so runs need
no side conditions about what is enabled.

**The environment is freer than an engine.** An engine spawns only what its cycles have found,
drains once at the start of each, and passes a node's own policy and group; here any future may be
spawned for any node at any time, with any policy and group, and only the first of a node counts. A
theorem over all runs is therefore one about every engine (`Driver.lean` has the embedding), and
about a manager used in any other way.

An abort stops a running task at once in these runs. `AsyncPolls.lean` adds the tasks that an abort
comes too late for, and contains these runs as those without them.

The second half of the file is about what is recorded of a node, its policy and its group: a spawn
applies what is recorded, or else what it was called with, and that is then what is recorded for
good.
-/

namespace ReactiveGraph

structure AsyncSystem (F : Type*) where
  manager : AsyncManager F
  spawned : List (NodeId × F)
  drained : List (NodeId × F)

inductive AsyncAction (F : Type*) where
  | createGroup (maxConcurrent : ℕ)
  | spawn (nodeId : NodeId) (future : F) (policy : AsyncPolicy) (groupId : Option ℕ)
  | complete (id : TaskId)
  | drain

namespace AsyncSystem

variable {F : Type*}

def init : AsyncSystem F := ⟨.new, [], []⟩

def apply (s : AsyncSystem F) : AsyncAction F → AsyncSystem F
  | .createGroup max => { s with manager := (s.manager.createGroup max).1 }
  | .spawn n f policy groupId =>
    { s with
      manager := s.manager.spawn n f policy groupId
      spawned := s.spawned ++ [(n, f)] }
  | .complete id => { s with manager := s.manager.complete id }
  | .drain =>
    { s with
      manager := s.manager.drainResults.1
      drained := s.drained ++ s.manager.drainResults.2 }

/-- The futures passed to `spawn` for a node, and the results drained for it, in order. -/
def spawnedOf (s : AsyncSystem F) (n : NodeId) : List F :=
  (s.spawned.filter (·.1 = n)).map Prod.snd

def drainedOf (s : AsyncSystem F) (n : NodeId) : List F :=
  (s.drained.filter (·.1 = n)).map Prod.snd

end AsyncSystem

namespace AsyncManager

variable {F : Type*}

/-- The undrained results of a node, in the order they were sent. -/
def resultsOf (m : AsyncManager F) (n : NodeId) : List F :=
  (m.resultRx.filter (·.1 = n)).map Prod.snd

/-- The handle the node's state holds: of its last started task, unless a completion of the node or
a cancellation has cleared it. -/
def handleOf (m : AsyncManager F) (n : NodeId) : Option TaskId :=
  (m.nodeStates.get n).bind AsyncNodeState.inFlight

theorem inFlight_stateOr (m : AsyncManager F) (n : NodeId) (policy : AsyncPolicy)
    (groupId : Option ℕ) : (m.stateOr n policy groupId).inFlight = m.handleOf n := by
  unfold stateOr handleOf
  cases m.nodeStates.get n <;> rfl

end AsyncManager

/-! ## What is recorded of a node -/

namespace AsyncManager

variable {F : Type*} {m : AsyncManager F}

/-- The policy and the group the manager has recorded for a node: those of its first spawn. -/
def profileOf (m : AsyncManager F) (id : NodeId) : Option (AsyncPolicy × Option ℕ) :=
  (m.nodeStates.get id).map fun state => (state.policy, state.groupId)

theorem profileOf_eq (m : AsyncManager F) (id : NodeId) :
    m.profileOf id = (m.policyOf id).map (·, m.groupIdOf id) := by
  unfold profileOf policyOf groupIdOf
  cases m.nodeStates.get id <;> rfl

theorem profileOf_congr {m₁ m₂ : AsyncManager F} (hp : m₂.policyOf = m₁.policyOf)
    (hg : m₂.groupIdOf = m₁.groupIdOf) (id : NodeId) : m₂.profileOf id = m₁.profileOf id := by
  rw [profileOf_eq, profileOf_eq, hp, hg]

/-- A spawn applies what is recorded, or else what it was called with. -/
theorem profile_stateOr (m : AsyncManager F) (id : NodeId) (policy : AsyncPolicy)
    (groupId : Option ℕ) :
    ((m.stateOr id policy groupId).policy, (m.stateOr id policy groupId).groupId) =
      (m.profileOf id).getD (policy, groupId) := by
  unfold stateOr profileOf
  cases m.nodeStates.get id <;> rfl

/-- What it applied is what is recorded from then on. -/
theorem profileOf_spawn (m : AsyncManager F) (id : NodeId) (future : F) (policy : AsyncPolicy)
    (groupId : Option ℕ) (id' : NodeId) :
    (m.spawn id future policy groupId).profileOf id' =
      if id' = id then some ((m.profileOf id).getD (policy, groupId)) else m.profileOf id' := by
  rw [profileOf_congr policyOf_spawn groupIdOf_spawn]
  unfold profileOf
  split
  · next h =>
    rw [h, get_record, Option.map_some, profile_stateOr]
    rfl
  · next h => rw [get_record_of_ne h]

end AsyncManager

/-- Every operation keeps the manager well-formed, whatever the environment does with it. -/
theorem AsyncSystem.WF.apply {F : Type*} {s : AsyncSystem F} (h : s.manager.WF)
    (a : AsyncAction F) : (s.apply a).manager.WF := by
  cases a with
  | createGroup max => exact h.createGroup max
  | spawn n f policy groupId => exact h.spawn n f policy groupId
  | complete id => exact h.complete id
  | drain => exact h.drainResults

/-! Two nodes, for runs on fixed inputs. -/

def nodeA : NodeId := ⟨0, 0⟩

def nodeB : NodeId := ⟨0, 1⟩

end ReactiveGraph
