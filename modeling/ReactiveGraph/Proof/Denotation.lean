import ReactiveGraph.Proof.Convergence
import ReactiveGraph.Proof.Registered

/-!
# What a program means

A program gives each id a node. Clients merge parts of it, in any order and as often as they like,
and send values to its sources; threads, cycles and tasks do the rest. What it means has nothing to
do with that: some values at the sources, and at every other node what its function makes of the
values at its dependencies. **An engine that has come to rest holds what the program means**, and
has last shown it to the sinks. Two engines that were fed the same values in the end agree, then,
whatever has gone on in them before.

**The meaning is defined without the engine.** `Means` is a condition on a store: it has a value for
every node of the part, and each value is what the node's function gives on that store. A part has
one meaning at most (`Means.unique`), and one if its functions give a value whenever there is one at
each dependency (`Part.exists_means`); it is evaluated in the order of its dependencies. These two
are about programs alone, and the theorem about engines supposes a meaning and does not make one.

**What a run has to do** is `Executes`: merge a part of the program and keep it, and end, for each
source, with one value whichever of the two ways is looked at last (`SentLast`). If values go both
ways and the last ones differ, which of them the engine holds is a matter of timing, and the theorem
is silent. That the merged nodes are pure and acyclic comes from the moves being orderly.

**Async nodes** stand in the definitions with the others. A run whose subgraphs are such as a
builder makes has none (`Registered.lean`), and then the clause about triggers asks nothing.
-/

namespace ReactiveGraph

open Engine

variable {V : Type*}

/-- A node for each id, whatever it is merged with: merging cannot give an id two meanings, as
registration alone could. -/
structure Program (V : Type*) where
  node : NodeId → NodeDescriptor V
  id_node : ∀ id, (node id).id = id

namespace Program

variable {p : Program V} {S : Finset NodeId} {last : NodeId → V} {sol store : ValueStore V}

def kind (p : Program V) (id : NodeId) : NodeKind := (p.node id).kind

def deps (p : Program V) (id : NodeId) : List NodeId := (p.node id).deps

/-- What a node is to hold, with those values at its dependencies. A source has what was sent last. -/
def value (p : Program V) (last : NodeId → V) (v : NodeId) (store : ValueStore V) : Option V :=
  match p.kind v with
  | .source => some (last v)
  | .compute => (p.node v).nodeImpl.compute (p.deps v) store
  | .asyncCompute => (p.node v).nodeImpl.computeAsync (p.deps v) store
  | .sink => none

/-- A part of a program that stands alone: closed under dependencies, none of which is a sink,
without cycles, and of functions that look at nothing else. -/
structure Part (p : Program V) (S : Finset NodeId) : Prop where
  closed : ∀ v ∈ S, ∀ u ∈ p.deps v, u ∈ S ∧ p.kind u ≠ .sink
  acyclic : Dag.Acyclic (Dag.Within p.deps S)
  reads : ∀ v ∈ S, (p.node v).nodeImpl.ReadsDeps (p.deps v) ∧
    (p.node v).nodeImpl.AsyncReadsDeps (p.deps v)

/-- The meaning of a part of a program: each of its nodes but the sinks holds what it is to hold.
Sinks hold nothing; what they are shown is read off the meaning. -/
structure Means (p : Program V) (S : Finset NodeId) (last : NodeId → V) (sol : ValueStore V) :
    Prop where
  total : ∀ v ∈ S, p.kind v ≠ .sink → sol.contains v
  solves : ∀ v ∈ S, p.kind v ≠ .sink → p.value last v sol = sol.getById v

/-- What can be computed has been. Weaker than `Means`, since a node whose function gives nothing
may hold anything; it is what an engine at rest is first shown to satisfy. -/
def Follows (p : Program V) (S : Finset NodeId) (last : NodeId → V) (store : ValueStore V) : Prop :=
  ∀ v ∈ S, p.kind v ≠ .sink → ∀ value, p.value last v store = some value →
    store.getById v = some value

theorem Part.value_congr (h : p.Part S) {v : NodeId} (hv : v ∈ S) {store store' : ValueStore V}
    (hdeps : ∀ u ∈ p.deps v, store.getById u = store'.getById u) :
    p.value last v store = p.value last v store' := by
  obtain ⟨hreads, hasync⟩ := h.reads v hv
  unfold value
  split
  · rfl
  · exact hreads store store' hdeps
  · exact hasync store store' hdeps
  · rfl

theorem Means.follows (h : p.Means S last sol) : p.Follows S last sol :=
  fun v hv hk _ hvalue => (h.solves v hv hk).symm.trans hvalue

/-- **A store that follows the program holds its meaning**, if there is one. By induction along the
dependencies: those have their meanings, so the function gives the node's own, and the store holds
what can be computed. -/
theorem Follows.getById_eq (h : p.Follows S last store) (hp : p.Part S)
    (hsol : p.Means S last sol) :
    ∀ v ∈ S, p.kind v ≠ .sink → store.getById v = sol.getById v := by
  refine hp.acyclic.induction S (fun _ _ huv => huv.2.2) fun v ih hv hk => ?_
  obtain ⟨value, hvalue⟩ := ValueStore.contains_iff.mp (hsol.total v hv hk)
  have hdeps : ∀ u ∈ p.deps v, store.getById u = sol.getById u := by
    intro u hu
    obtain ⟨hS, hku⟩ := hp.closed v hv u hu
    exact ih u ⟨hu, hS, hv⟩ hS hku
  rw [hvalue]
  refine h v hv hk value ?_
  rw [hp.value_congr hv hdeps, hsol.solves v hv hk, hvalue]

/-- So a part has one meaning at most. -/
theorem Means.unique (h : p.Means S last sol) (hp : p.Part S) (h' : p.Means S last store) :
    ∀ v ∈ S, p.kind v ≠ .sink → store.getById v = sol.getById v :=
  h'.follows.getById_eq hp h

/-- A node of the part is given what it is to hold. -/
def evaluate (p : Program V) (S : Finset NodeId) (last : NodeId → V) (v : NodeId)
    (store : ValueStore V) : ValueStore V :=
  if v ∈ S then
    match p.value last v store with
    | some value => store.setById v value
    | none => store.remove v
  else store

theorem Part.given (h : p.Part S) (last : NodeId → V) :
    Dataflow.Given ValueStore.getById p.deps (p.evaluate S last) fun v store own =>
      if v ∈ S then p.value last v store else own where
  frame v store v' hne := by
    unfold evaluate
    split
    · split
      · exact ValueStore.getById_setById_of_ne _ _ hne
      · exact ValueStore.getById_remove_of_ne _ hne
    · rfl
  step_eq v store := by
    unfold evaluate
    split
    · cases p.value last v store with
      | some value => exact ValueStore.getById_setById_self _ _ _
      | none => exact ValueStore.getById_remove_self _ _
    · rfl
  congr v store store' own hdeps := by
    split
    · next hv => exact h.value_congr hv hdeps
    · rfl

/-- **A part of functions that give a value whenever there is one at each dependency has a meaning**,
whatever its sources are fed: it is evaluated in the order of its dependencies. -/
theorem Part.exists_means (h : p.Part S) (last : NodeId → V)
    (htotal : ∀ v ∈ S, p.kind v ≠ .sink → ∀ store : ValueStore V,
      (∀ u ∈ p.deps v, store.contains u) → (p.value last v store).isSome) :
    ∃ sol, p.Means S last sol := by
  obtain ⟨l, hnd, hmem, ho⟩ := h.acyclic.exists_ordered
  have ho' : Dag.Ordered p.deps (· ∈ l) l := ho.mono (fun _ _ _ hu => hu) fun u => (hmem u).mp
  have hsolves := (h.given last).solves_evalAll hnd ho' (fun v => (hmem v).symm) .new
  refine ⟨Dataflow.evalAll (p.evaluate S last) l .new, ?_, fun v hv _ => ?_⟩
  · refine h.acyclic.induction S (fun _ _ huv => huv.2.2) fun v ih hv hk => ?_
    rw [ValueStore.contains, ← ValueStore.getById, hsolves.evaluated v hv, if_pos hv]
    refine htotal v hv hk _ fun u hu => ?_
    obtain ⟨hS, hku⟩ := h.closed v hv u hu
    exact ih u ⟨hu, hS, hv⟩ hS hku
  · rw [hsolves.evaluated v hv, if_pos hv]

end Program

/-! ## Clients that merge parts of a program -/

variable {p : Program V}

/-- What the move has merged are nodes of the program. -/
def Move.Uses (p : Program V) : Move V → Prop
  | .merge subgraph _ => ∀ desc ∈ subgraph.descriptors, p.node desc.id = desc
  | _ => True

theorem Move.Uses.brings {m : Move V} (h : m.Uses p) :
    m.Brings fun desc => p.node desc.id = desc := by
  cases m <;> exact h

namespace Threads

variable {t : Threads V} {ms : List (Move V)}

/-! ## Engines that have come to rest -/

/-- The value was sent last to the source, in each of the ways in which any was sent. Both orders of
the two ways give it, so it does not matter which is looked at last. -/
def SentLast (ms : List (Move V)) (v : NodeId) (value : V) : Prop :=
  (lastSent (Runs.trace apply bridges init ms) v).or (lastSent (ms.flatMap Move.directs) v) =
      some value ∧
    (lastSent (ms.flatMap Move.directs) v).or (lastSent (Runs.trace apply bridges init ms) v) =
      some value

/-- A run in which clients that keep to the program have merged a part of it, to stay, and have sent
its sources these values last. Its async nodes have been triggered, and wait for one another. The
last clause is for programs over the model's subgraphs; a builder's have none. -/
structure Executes (p : Program V) (S : Finset NodeId) (last : NodeId → V) (ms : List (Move V)) :
    Prop where
  uses : ∀ m ∈ ms, m.Uses p
  orderly : Runs.AllSteps apply (Orderly p.kind) init ms
  active : ∀ v ∈ S, v ∈ (run ms).engine.active
  lasts : ∀ v ∈ S, Lasts ms v
  fed : ∀ v ∈ S, p.kind v = .source → SentLast ms v (last v)
  triggered : ∀ v ∈ S, p.kind v = .asyncCompute →
    (run ms).engine.asyncManager.policyOf v = some .queue ∧
      lastSent (seen (run ms).engine.effects) v ≠ none

variable {S : Finset NodeId} {last : NodeId → V} {sol : ValueStore V}

/-- The node is registered as the program has it. -/
theorem Executes.entry (h : Executes p S last ms) {v : NodeId} (hv : v ∈ S) :
    ∃ entry, (run ms).engine.graph.entries.get v = some entry ∧ p.node v = entry.descriptor v := by
  obtain ⟨entry, hentry⟩ := FinMap.exists_get_of_mem_keys
    ((coherent_run h.orderly).2.proper.ok.active_subset (h.active v hv))
  exact ⟨entry, hentry, registers_run (fun m hm => (h.uses m hm).brings) v entry hentry⟩

theorem Executes.depsOf (h : Executes p S last ms) {v : NodeId} (hv : v ∈ S) :
    (run ms).engine.graph.depsOf v = p.deps v := by
  obtain ⟨entry, hentry, hnode⟩ := h.entry hv
  rw [Graph.depsOf_of_get hentry, Program.deps, hnode]
  rfl

/-- What clients may merge is acyclic and reads its dependencies only. -/
theorem Executes.part (h : Executes p S last ms)
    (hclosed : ∀ v ∈ S, ∀ u ∈ p.deps v, u ∈ S ∧ p.kind u ≠ .sink) : p.Part S := by
  have hproper := (coherent_run h.orderly).2.proper
  refine ⟨hclosed, hproper.acyclic.mono fun u v ⟨hu, _, hv⟩ => ?_, fun v hv => ?_⟩
  · rwa [Reads, h.depsOf hv]
  · obtain ⟨entry, hentry, hnode⟩ := h.entry hv
    obtain ⟨-, hpure, hasync⟩ := hproper.fitting v entry hentry
    rw [Program.deps, hnode]
    exact ⟨hpure.congr, hasync⟩

/-- **An engine at rest follows the program.** What `Reflects` says of it, node by node: a source by
what was sent last, a compute node since it has been recomputed, an async node since its last result
has come. -/
theorem Executes.follows (h : Executes p S last ms) (hrest : (run ms).AtRest)
    (hrun : (run ms).loop ≠ .stopped) :
    p.Follows S last (run ms).engine.graph.valueStore := by
  intro v hv hk value hvalue
  have hreflects := reflects_of_atRest h.orderly hrest hrun
  obtain ⟨entry, hentry, hnode⟩ := h.entry hv
  have hkind : entry.kind = p.kind v := by
    rw [Program.kind, hnode]
    rfl
  rw [Program.value] at hvalue
  split at hvalue
  · next hkv =>
    obtain ⟨hbridged, hdirect⟩ := h.fed v hv hkv
    rw [← hvalue]
    rcases hreflects.sources v (h.lasts v hv) hkv with heq | heq
    · exact heq.trans hbridged
    · exact heq.trans hdirect
  · next hkv =>
    refine hreflects.computed v entry value (h.active v hv) hentry (hkind.trans hkv) ?_
    rwa [Program.deps, hnode] at hvalue
  · next hkv =>
    obtain ⟨hqueue, hcalled⟩ := h.triggered v hv hkv
    refine hreflects.awaited v entry value (h.lasts v hv) hkv hqueue hentry hcalled ?_
    rwa [Program.deps, hnode] at hvalue
  · exact absurd hvalue (Option.some_ne_none value).symm

/-- **An engine at rest holds what the program means**, and has last shown it to the sinks. How the
threads have interleaved, what was merged when and what was sent before is forgotten.

The hypotheses: the run executes the part, all has come to rest and the loop has not been stopped,
the part is closed, and it has a meaning for these values. That fair schedules bring an engine to
rest is `quiesces`; that there is a meaning is `Part.exists_means`. -/
theorem means_at_rest (h : Executes p S last ms) (hrest : (run ms).AtRest)
    (hrun : (run ms).loop ≠ .stopped)
    (hclosed : ∀ v ∈ S, ∀ u ∈ p.deps v, u ∈ S ∧ p.kind u ≠ .sink) (hsol : p.Means S last sol) :
    (∀ v ∈ S, p.kind v ≠ .sink →
      (run ms).engine.graph.valueStore.getById v = sol.getById v) ∧
    ∀ v ∈ S, ∀ reads, p.kind v = .sink →
      lastSent (seen (run ms).engine.effects) v = some reads → reads = sol.reads (p.deps v) := by
  have hvalues := (h.follows hrest hrun).getById_eq (h.part hclosed) hsol
  refine ⟨hvalues, fun v hv reads hk hlast => ?_⟩
  rw [(reflects_of_atRest h.orderly hrest hrun).shown v reads (h.lasts v hv) hk hlast, h.depsOf hv]
  refine List.map_congr_left fun u hu => ?_
  obtain ⟨hS, hku⟩ := hclosed v hv u hu
  exact hvalues u hS hku

end Threads

/-! ## A run that can be checked -/

instance LoopPc.decidableBlocked : (pc : LoopPc V) → Decidable (pc = .blocked)
  | .blocked => .isTrue rfl
  | .collecting _ | .processing .. | .sending .. | .drainingSources .. | .drainingResults ..
  | .completing .. | .spawning .. | .stopped => .isFalse nofun

instance LoopPc.decidableStopped : (pc : LoopPc V) → Decidable (pc = .stopped)
  | .stopped => .isTrue rfl
  | .blocked | .collecting _ | .processing .. | .sending .. | .drainingSources ..
  | .drainingResults .. | .completing .. | .spawning .. => .isFalse nofun

instance BridgePc.decidableBlocked : (pc : BridgePc V) → Decidable (pc = .blocked)
  | .blocked => .isTrue rfl
  | .forwarding _ | .notifying => .isFalse nofun

namespace Threads

instance (t : Threads V) : Decidable t.LoopRests := inferInstanceAs (Decidable (_ ∧ _ ∨ _))

theorem atRest_iff {t : Threads V} : t.AtRest ↔ t.LoopRests ∧ t.bridge = .blocked ∧
    t.bridgeRx = [] ∧ t.engine.asyncManager.runtime.running = [] ∧
      t.engine.asyncManager.runtime.notifying = 0 :=
  ⟨fun h => ⟨h.loop, h.bridge, h.bridgeRx, h.running, h.notifying⟩,
    fun ⟨hl, hb, hrx, hr, hn⟩ => ⟨hl, hb, hrx, hr, hn⟩⟩

instance (t : Threads V) : Decidable t.AtRest := decidable_of_iff _ atRest_iff.symm

instance (ms : List (Move V)) (v : NodeId) : Decidable (Lasts ms v) :=
  inferInstanceAs (Decidable (Runs.AllSteps _ _ _ _))

instance (ms : List (Move ℕ)) (v : NodeId) (value : ℕ) : Decidable (SentLast ms v value) :=
  inferInstanceAs (Decidable (_ ∧ _))

end Threads

namespace Sample

/-- A source, its value again, their sum, and a sink for both. -/
def ledgerNodes : List (NodeDescriptor ℕ) := [node .source 0 [], node .compute 1 [0],
  node .compute 2 [0, 1], node .sink 3 [1, 2]]

def ledger : Program ℕ where
  node id := (ledgerNodes.find? (·.id = id)).getD ⟨id, .sink, [], impl⟩
  id_node id := by
    cases h : ledgerNodes.find? (·.id = id) with
    | none => rfl
    | some desc => simpa using List.find?_some h

def ledgerIds : Finset NodeId := {nodeId 0, nodeId 1, nodeId 2, nodeId 3}

/-- Three values are sent in commands, and the loop goes on until it blocks. -/
def settles : List (Move ℕ) :=
  [.merge (SubgraphBuilder.ofList ledgerNodes) 0, .updateSource (nodeId 0) 3] ++
    List.replicate 15 (.loop default) ++
    [.updateSource (nodeId 0) 4, .updateSource (nodeId 0) 5] ++ List.replicate 17 (.loop default)

/-- What the program means for a 5. -/
def ledgerMeaning : ValueStore ℕ :=
  ((ValueStore.new.setById (nodeId 0) 5).setById (nodeId 1) 5).setById (nodeId 2) 10

end Sample

open Sample

theorem descriptors_ledger : (SubgraphBuilder.ofList ledgerNodes).descriptors = ledgerNodes := rfl

theorem uses_settles : ∀ m ∈ settles, m.Uses ledger := by
  intro m hm
  simp only [settles, List.mem_append, List.mem_cons, List.not_mem_nil, or_false,
    List.mem_replicate, or_assoc] at hm
  rcases hm with rfl | rfl | ⟨-, rfl⟩ | rfl | rfl | ⟨-, rfl⟩
  · intro desc hdesc
    rw [descriptors_ledger] at hdesc
    simp only [ledgerNodes, List.mem_cons, List.not_mem_nil, or_false] at hdesc
    rcases hdesc with rfl | rfl | rfl | rfl <;> rfl
  all_goals trivial

theorem contained_ledger : (SubgraphBuilder.ofList ledgerNodes).Contained ledger.kind where
  fits desc hdesc := by
    have hasync : ∀ deps, AnyNodeImpl.AsyncReadsDeps impl deps := fun deps => (pure_impl deps).congr
    rw [descriptors_ledger] at hdesc
    simp only [ledgerNodes, List.mem_cons, List.not_mem_nil, or_false] at hdesc
    rcases hdesc with rfl | rfl | rfl | rfl <;> exact ⟨rfl, pure_impl _, hasync _⟩
  depsFirst := by decide

namespace Threads

theorem promised_settles : ∀ m ∈ settles, m.Promised ledger.kind := by
  intro m hm
  simp only [settles, List.mem_append, List.mem_cons, List.not_mem_nil, or_false,
    List.mem_replicate, or_assoc] at hm
  rcases hm with rfl | rfl | ⟨-, rfl⟩ | rfl | rfl | ⟨-, rfl⟩
  · exact contained_ledger
  all_goals first | rfl | trivial

theorem executes_settles : Executes ledger ledgerIds (fun _ => 5) settles where
  uses := uses_settles
  orderly := orderly_of_promised promised_settles
  active := by decide +kernel
  lasts := by decide +kernel
  fed := by decide +kernel
  triggered := by decide +kernel

theorem means_ledger : ledger.Means ledgerIds (fun _ => 5) ledgerMeaning where
  total := by decide +kernel
  solves := by decide +kernel

theorem means_at_rest_settles :
    (∀ v ∈ ledgerIds, ledger.kind v ≠ .sink →
      (run settles).engine.graph.valueStore.getById v = ledgerMeaning.getById v) ∧
    ∀ v ∈ ledgerIds, ∀ reads, ledger.kind v = .sink →
      lastSent (seen (run settles).engine.effects) v = some reads →
        reads = ledgerMeaning.reads (ledger.deps v) :=
  means_at_rest executes_settles (by decide +kernel) (by decide +kernel) (by decide +kernel)
    means_ledger

end Threads

end ReactiveGraph
