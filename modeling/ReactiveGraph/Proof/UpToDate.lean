import ReactiveGraph.Proof.AsyncOrder

/-!
# The engine is up to date

`Coherent` carries over a whole run: **whenever the loop is not in the middle of a cycle, the engine
is up to date with everything drained so far**, however the threads have interleaved.

A client has no means of looking at the engine before it posts a command, and other parties get at
the engine before the command does. It need not look, as long as its subgraphs bring their
dependencies along, each before the nodes that depend on it, as builders list them, and as long as
it keeps its handles.

**`Orderly` and `Promised`.** The theorem is about runs whose moves are orderly: a condition on each
command in the state it meets, that what it registers fits and closes the graph and what it removes
leaves no node without a dependency. `Promised` is a condition on the moves alone which implies it
(`orderly_of_promised`). The second is what a client can see to; the first is weaker and allows
handles to be dropped, as long as nobody depends on what goes.

**What the result says of a node** it says of those that have never been removed (`Lasts`). A source
that was removed and merged again holds what has been drained for it since, and a sink that was
removed may have been shown something that is gone. Nothing is said of values that are still on
their way, and nothing of what happens in the middle of a cycle.
-/

namespace ReactiveGraph

open Engine

variable {V : Type*} {kind : NodeId → NodeKind}

namespace Engine

variable {e : Engine V}

/-- Each node comes after its dependencies, but for those in `known`. A builder cannot do otherwise,
since a node is built from references that earlier builders have returned. -/
def DepsFirst : Finset NodeId → List (NodeDescriptor V) → Prop
  | _, [] => True
  | known, desc :: descs => (∀ d ∈ desc.deps, d ∈ known) ∧ DepsFirst (insert desc.id known) descs

instance DepsFirst.decidable :
    ∀ (known : Finset NodeId) (descs : List (NodeDescriptor V)), Decidable (DepsFirst known descs)
  | _, [] => .isTrue trivial
  | known, desc :: descs =>
    @instDecidableAnd _ _ _ (DepsFirst.decidable (insert desc.id known) descs)

/-- A node whose dependencies are registered may be. If it is new, nothing reads it yet, so it
closes no cycle; if not, nothing changes but a count. -/
theorem closed_register (hc : Closed e.graph) (hac : Dag.Acyclic (Reads e.graph))
    {desc : NodeDescriptor V} (hdeps : ∀ d ∈ desc.deps, d ∈ e.graph.entries.keys) :
    Closed (e.registerAll [desc]).graph ∧ Dag.Acyclic (Reads (e.registerAll [desc]).graph) := by
  have hold : ∀ v ∈ e.graph.entries.keys,
      (e.registerAll [desc]).graph.depsOf v = e.graph.depsOf v :=
    fun v hv => depsOf_registerAll hv [desc]
  by_cases hreg : desc.id ∈ e.graph.entries.keys
  · have hkeys : ∀ v ∈ (e.registerAll [desc]).graph.entries.keys, v ∈ e.graph.entries.keys := by
      intro v hv
      rcases mem_keys_registerAll.mp hv with hv | hv
      · exact hv
      · rwa [List.mem_singleton.mp hv]
    refine ⟨fun v hv u hu => ?_, hac.mono fun u v huv => ?_⟩
    · rw [hold v (hkeys v hv)] at hu
      exact mem_keys_registerAll.mpr (Or.inl (hc v (hkeys v hv) u hu))
    · rwa [Reads, hold v (hkeys v (mem_keys_of_reads huv))] at huv
  · have hnew : (e.registerAll [desc]).graph.depsOf desc.id = desc.deps := by
      obtain ⟨entry, hentry⟩ := FinMap.exists_get_of_mem_keys
        (mem_keys_registerAll.mpr (Or.inr List.mem_cons_self) :
          desc.id ∈ (e.registerAll [desc]).graph.entries.keys)
      obtain ⟨desc', hdesc', -, -, heq, -⟩ :=
        registerAll_of_none (FinMap.notMem_keys.mp hreg) hentry
      rw [Graph.depsOf_of_get hentry, heq, List.mem_singleton.mp hdesc']
    -- what a node reads was registered before
    have hreads : ∀ u v, Reads (e.registerAll [desc]).graph u v →
        u ∈ e.graph.entries.keys ∧ (v = desc.id ∨ Reads e.graph u v) := by
      intro u v huv
      rcases mem_keys_registerAll.mp (mem_keys_of_reads huv) with hv | hv
      · rw [Reads, hold v hv] at huv
        exact ⟨hc v hv u huv, Or.inr huv⟩
      · obtain rfl := List.mem_singleton.mp hv
        rw [Reads, hnew] at huv
        exact ⟨hdeps u huv, Or.inl rfl⟩
    exact ⟨fun v _ u hu => mem_keys_registerAll.mpr (Or.inl (hreads u v hu).1),
      hac.extend (fun u v huv => (hreads u v huv).2) fun w hw => hreg (hreads _ w hw).1⟩

/-- **A subgraph that brings its dependencies along may be registered anywhere.** -/
theorem DepsFirst.registerAll {known : Finset NodeId} {descs : List (NodeDescriptor V)}
    (h : DepsFirst known descs) (hknown : known ⊆ e.graph.entries.keys) (hc : Closed e.graph)
    (hac : Dag.Acyclic (Reads e.graph)) :
    Closed (e.registerAll descs).graph ∧ Dag.Acyclic (Reads (e.registerAll descs).graph) := by
  induction descs generalizing e known with
  | nil => exact ⟨hc, hac⟩
  | cons desc descs ih =>
    obtain ⟨hdeps, hrest⟩ := h
    obtain ⟨hc', hac'⟩ := closed_register hc hac fun d hd => hknown (hdeps d hd)
    rw [show desc :: descs = [desc] ++ descs from rfl, registerAll_append]
    refine ih hrest (fun id hid => mem_keys_registerAll.mpr ?_) hc' hac'
    rcases Finset.mem_insert.mp hid with rfl | hid
    · exact Or.inr List.mem_cons_self
    · exact Or.inl (hknown hid)

end Engine

/-! ## Clients that need not look -/

/-- The nodes fit, and each comes after its dependencies, all of which the subgraph has itself. -/
structure Subgraph.Contained (kind : NodeId → NodeKind) (s : Subgraph V) : Prop where
  fits : ∀ desc ∈ s.descriptors, desc.Fits kind
  depsFirst : DepsFirst ∅ s.descriptors

variable (kind) in
/-- A command that any engine may handle. -/
def Command.Promised : Command V → Prop
  | .sourceUpdate id _ => kind id = .source
  | .merge subgraph _ => subgraph.Contained kind
  | .remove _ => False
  | .asyncComplete | .sourceReady | .shutdown => True

variable (kind) in
/-- A move of a client that brings along what it needs and holds on to its handles; all moves of the
other parties. -/
def Move.Promised : Move V → Prop
  | .send id _ | .updateSource id _ => kind id = .source
  | .merge subgraph _ => subgraph.Contained kind
  | .dropHandle nodeIds => nodeIds = []
  | .loop _ | .bridge | .complete _ | .notify | .shutdown => True

theorem Command.Promised.orderly {c : Command V} (h : c.Promised kind) {e : Engine V}
    (he : e.Proper kind) : c.Orderly kind e := by
  cases c with
  | merge subgraph reply =>
    exact ⟨h.fits, h.depsFirst.registerAll (Finset.empty_subset _) he.closed he.acyclic⟩
  | remove nodeIds => exact h.elim
  | sourceUpdate | asyncComplete | sourceReady | shutdown => exact h

namespace Threads

variable {t : Threads V} {ms : List (Move V)}

theorem promised_posts {m : Move V} (h : m.Promised kind) :
    ∀ c ∈ t.posts m, c.Promised kind := by
  intro c hc
  cases m with
  | bridge =>
    rw [posts] at hc
    split at hc
    · rw [List.mem_singleton.mp hc]
      trivial
    · exact absurd hc List.not_mem_nil
  | notify =>
    rw [posts] at hc
    split at hc
    · rw [List.mem_singleton.mp hc]
      trivial
    · exact absurd hc List.not_mem_nil
  | dropHandle nodeIds =>
    rw [posts, if_pos (show nodeIds = [] from h)] at hc
    exact absurd hc List.not_mem_nil
  | updateSource | merge | shutdown =>
    rw [List.mem_singleton.mp hc]
    exact h
  | loop | complete | send => exact absurd hc List.not_mem_nil

/-- **Such clients never post a command that comes at a bad moment.** Whatever was registered in
between, a subgraph that brings its own dependencies finds them registered, by itself or by someone
before. -/
theorem orderly_of_promised (h : ∀ m ∈ ms, m.Promised kind) :
    Runs.AllSteps apply (Orderly kind) init ms := by
  refine Runs.allSteps_of_invariant (P := fun m => m.Promised kind)
    (I := fun t => t.Awake ∧ (∃ ss rs fs, t.Coherent kind (fun _ => False) ss rs fs) ∧
      ∃ posted handled, t.Linear posted handled ∧ ∀ c ∈ posted, c.Promised kind)
    (fun t m => ?_) ⟨.init, ⟨[], [], [], .init⟩, [], [], .init, fun _ hc => absurd hc List.not_mem_nil⟩ h
  rintro ⟨hawake, ⟨ss, rs, fs, hcoh⟩, posted, handled, hlin, hposted⟩ hm
  -- the loop handles a command that somebody has posted
  have horderly : t.Orderly kind m := by
    cases m with
    | loop o =>
      simp only [Orderly]
      split
      · next c commands hasUpdates shouldShutdown hpc =>
        refine (hposted c ?_).orderly hcoh.proper
        rw [hlin.fifo, hpc]
        simp [LoopPc.collected]
      · trivial
    | send => exact hm
    | bridge | complete | notify | updateSource | merge | dropHandle | shutdown => trivial
  refine ⟨horderly, hawake.apply m, ⟨_, _, _, hcoh.apply hawake m horderly fun _ hv => hv.elim⟩,
    _, _, hlin.apply m, fun c hc => ?_⟩
  rcases List.mem_append.mp hc with hc | hc
  · exact hposted c hc
  · exact promised_posts hm c hc

/-! ## Every run -/

/-- Coherence over a whole run. -/
theorem coherent_run (h : Runs.AllSteps apply (Orderly kind) init ms) :
    (run ms).Awake ∧ (run ms).Coherent kind (Lasts ms) (Runs.trace apply drainsSource init ms)
      (Runs.trace apply drainsResult init ms) (Runs.trace apply gives init ms) := by
  refine Runs.history (Q := fun ms => (run ms).Awake ∧ (run ms).Coherent kind (Lasts ms)
    (Runs.trace apply drainsSource init ms) (Runs.trace apply drainsResult init ms)
    (Runs.trace apply gives init ms)) ⟨.init, .init⟩ (fun ms m hms hm => ?_) h
  obtain ⟨hawake, hcoh⟩ := hms
  have hrun : run (ms ++ [m]) = (run ms).apply m := Runs.run_append apply init ms [m]
  rw [hrun, Runs.trace_snoc, Runs.trace_snoc, Runs.trace_snoc]
  refine ⟨hawake.apply m, hcoh.apply hawake m hm fun v hv => ?_⟩
  obtain ⟨hbefore, hstep⟩ := Runs.AllSteps.append.mp hv
  exact ⟨hbefore, hstep.1⟩

/-- **Between its cycles the engine is up to date**, in every run in which the clients' commands
come in order. The three lists are what the run has drained from the source channel, drained as
results, and given out as futures so far.

`Lasts ms` restricts the statement to nodes that have not been removed. In the middle of a cycle it
need not hold: some values have been drained and not yet propagated. -/
theorem up_to_date (h : Runs.AllSteps apply (Orderly kind) init ms)
    (hidle : (run ms).loop.midCycle = false) :
    (run ms).engine.Current kind (Lasts ms) (Runs.trace apply drainsSource init ms)
      (Runs.trace apply drainsResult init ms) (Runs.trace apply gives init ms) := by
  obtain ⟨hupdated, hresults⟩ := LoopPc.updated_of_not_midCycle hidle
  exact (coherent_run h).2.idle hupdated hresults

open Sample in
/-- A source, a node that takes its value twice, and a sink. -/
def relay : Subgraph ℕ :=
  SubgraphBuilder.ofList [node .source 0 [], node .compute 1 [0, 0], node .sink 2 [1]]

open Sample in
/-- The source is sent a value in a command, and then another one over the bridge; the loop is left
between two cycles. -/
def relays : List (Move ℕ) :=
  [.merge relay 0, .updateSource (nodeId 0) 3] ++ List.replicate 15 (.loop default) ++
    [.send (nodeId 0) 4, .bridge, .bridge, .bridge] ++ List.replicate 10 (.loop default)

open Sample in
def relayKind (id : NodeId) : NodeKind :=
  if id = nodeId 0 then .source else if id = nodeId 1 then .compute else .sink

open Sample in
theorem contained_relay : relay.Contained relayKind where
  fits desc hdesc := by
    have hasync : ∀ deps, AnyNodeImpl.AsyncReadsDeps impl deps := fun deps => (pure_impl deps).congr
    have hdescs : relay.descriptors =
        [node .source 0 [], node .compute 1 [0, 0], node .sink 2 [1]] := rfl
    rw [hdescs] at hdesc
    simp only [List.mem_cons, List.not_mem_nil, or_false] at hdesc
    rcases hdesc with rfl | rfl | rfl <;> exact ⟨rfl, pure_impl _, hasync _⟩
  depsFirst := by decide

theorem promised_relays : ∀ m ∈ relays, m.Promised relayKind := by
  intro m hm
  simp only [relays, List.mem_append, List.mem_cons, List.not_mem_nil, or_false,
    List.mem_replicate, or_assoc] at hm
  rcases hm with rfl | rfl | ⟨-, rfl⟩ | rfl | rfl | rfl | rfl | ⟨-, rfl⟩
  · exact contained_relay
  all_goals first | rfl | trivial

open Sample in
/-- The sink has last been shown twice the value that went over the bridge. -/
theorem up_to_date_relays :
    lastSent (seen (run relays).engine.effects) (nodeId 2) = some [some 8] ∧
      (run relays).engine.Current relayKind (Lasts relays) (Runs.trace apply drainsSource init relays)
        (Runs.trace apply drainsResult init relays) (Runs.trace apply gives init relays) :=
  ⟨by decide +kernel, up_to_date (orderly_of_promised promised_relays) (by decide +kernel)⟩

end Threads

end ReactiveGraph
