import ReactiveGraph.Proof.Representation

/-!
# Nothing outlives its handles

A reference count is never too high. A merge adds one to the count of each node it names, however
often it names it, and hands out one handle that names the same nodes; when the handle's list is
worked off, each node on it that is still there loses one at least. A node can lose more, or go
before its time and be registered again under another handle, and the count is then too low. It is
never higher than the number of handles that are still to be released.

**The other side of lifetime.** `Lifetime.lean` says when a node goes too early; here nothing stays
too long. The first has a condition, since the cascade takes references nobody counted; the second
has none beyond that all registration is by subgraphs: a node built on the graph directly is counted
once and no handle will ever release it.

**Handles on their way** count as well. A dropped handle's list may wait in the removal queue, a
remote handle's in a `Remove` command, and the bound counts those lists that name the node. It
counts lists and not occurrences in them, which is the sharper bound: a list that names a node twice
releases it twice, and is one handle.

When no handle is left and no list waits, every count is at most zero, every entry counts at least
one, so there is no entry; and the engine's other maps have nothing that the registry does not have
(`Represented`). Values that come late are another matter (`Leftovers.lean`).
-/

namespace ReactiveGraph

variable {V : Type*}

namespace Engine

variable {e e' : Engine V} {n : NodeId → ℕ}

/-- Every entry counts at most `n`, and one for each list in the removal queue that names it. `n` is
what is to be released later, by handles that are not dropped yet. -/
def CountedBy (n : NodeId → ℕ) (e : Engine V) : Prop :=
  ∀ id entry, e.graph.entries.get id = some entry →
    entry.refCount ≤ n id + e.pendingRemovals.countP (id ∈ ·)

/-- One for a list that names the node. -/
def naming (nodeIds : List NodeId) (id : NodeId) : ℕ := if id ∈ nodeIds then 1 else 0

theorem naming_le_count (nodeIds : List NodeId) (id : NodeId) :
    naming nodeIds id ≤ nodeIds.count id := by
  unfold naming
  split
  · next h => exact List.count_pos_iff.mpr h
  · exact Nat.zero_le _

theorem countP_cons_naming (nodeIds : List NodeId) (lists : List (List NodeId)) (id : NodeId) :
    (nodeIds :: lists).countP (id ∈ ·) = lists.countP (id ∈ ·) + naming nodeIds id := by
  rw [List.countP_cons, naming]
  simp only [decide_eq_true_eq]

theorem countP_append_naming (lists : List (List NodeId)) (nodeIds : List NodeId) (id : NodeId) :
    (lists ++ [nodeIds]).countP (id ∈ ·) = lists.countP (id ∈ ·) + naming nodeIds id := by
  rw [List.countP_append, countP_cons_naming, List.countP_nil, Nat.zero_add]

namespace CountedBy

theorem congr (h : CountedBy n e) (hr : e'.graph.entries = e.graph.entries)
    (hp : e'.pendingRemovals = e.pendingRemovals) : CountedBy n e' := by
  intro id entry hentry
  rw [hp]
  exact h id entry (hr ▸ hentry)

/-- **A release takes one from everything on the list**, at least. Through the rule for
deactivation, with the list's nodes going one by one; the cascades only take more. -/
theorem release {nodeIds : List NodeId} (h : CountedBy (fun id => n id + naming nodeIds id) e) :
    CountedBy n (e.release nodeIds) := by
  intro id entry' hentry'
  rw [pendingRemovals_release]
  rw [entries_release] at hentry'
  obtain ⟨entry, hentry, -⟩ := RefCount.get_release hentry'
  have hle : entry'.refCount + nodeIds.reverse.count id ≤ entry.refCount :=
    RefCount.count_release_le hentry hentry'
  rw [List.count_reverse] at hle
  have hcount := h id entry hentry
  have hname := naming_le_count nodeIds id
  simp only at hcount
  omega

theorem deactivate (h : CountedBy n e) (id : NodeId) : CountedBy n (e.deactivate id) := by
  have h' : CountedBy (fun id' => n id' + naming [id] id') e := fun id' entry hentry =>
    (h id' entry hentry).trans (Nat.add_le_add_right (Nat.le_add_right _ _) _)
  exact h'.release

theorem drainPendingRemovals (h : CountedBy n e) : CountedBy n e.drainPendingRemovals := by
  have hfold : ∀ (queue : List (List NodeId)) (e₁ : Engine V), e₁.pendingRemovals = [] →
      CountedBy (fun id => n id + queue.countP (id ∈ ·)) e₁ →
        CountedBy n (queue.foldl Engine.release e₁) := by
    intro queue
    induction queue with
    | nil => exact fun e₁ _ h₁ => h₁
    | cons nodeIds queue ih =>
      intro e₁ hp h₁
      refine ih _ ((pendingRemovals_release e₁ nodeIds).trans hp) (release ?_)
      simp only [countP_cons_naming, ← Nat.add_assoc] at h₁
      exact h₁
  refine hfold e.pendingRemovals { e with pendingRemovals := [] } rfl fun id entry hentry => ?_
  exact h id entry hentry

/-- Registering the descriptors of a subgraph counts each of its nodes once, since a builder hands
over one descriptor for each id. -/
theorem registerAll {s : Subgraph V} (hs : s.Built) (h : CountedBy n e) :
    CountedBy (fun id => n id + naming s.nodeIds id) (e.registerAll s.descriptors) := by
  intro id entry hentry
  have hcount : (s.descriptors.map NodeDescriptor.id).count id ≤ naming s.nodeIds id := by
    unfold naming
    split
    · exact List.nodup_iff_count_le_one.mp hs.nodup id
    · next hid => exact (List.count_eq_zero.mpr fun hmem => hid ((hs.ids id).mpr hmem)).le
  rw [get_registerAll] at hentry
  show entry.refCount ≤ n id + naming s.nodeIds id + e.pendingRemovals.countP (id ∈ ·)
  cases hold : e.graph.entries.get id with
  | some old =>
    rw [hold, registeredEntry, Option.some.injEq] at hentry
    have hle := h id old hold
    rw [← hentry]
    simp only
    omega
  | none =>
    rw [hold] at hentry
    obtain ⟨desc, -, rfl⟩ := Option.map_eq_some_iff.mp hentry
    simp only
    omega

theorem merge {s : Subgraph V} (hs : s.Built) (h : CountedBy n e) :
    CountedBy (fun id => n id + naming s.nodeIds id) (e.merge s).1 :=
  have hrest := sameRest_merge e s
  (h.drainPendingRemovals.registerAll hs).congr hrest.entries hrest.pendingRemovals

theorem activateSink (h : CountedBy n e) (id : NodeId) : CountedBy n (e.activateSink id) :=
  have hrest := sameRest_activate e.drainPendingRemovals id
  h.drainPendingRemovals.congr hrest.entries hrest.pendingRemovals

theorem dropHandle {handle : SubgraphHandle}
    (h : CountedBy (fun id => n id + naming handle.nodeIds id) e) :
    CountedBy n (e.dropHandle handle) := by
  intro id entry hentry
  unfold Engine.dropHandle at hentry ⊢
  split at hentry
  · next hnil =>
    rw [if_pos hnil]
    have hle := h id entry hentry
    simp only [hnil, naming, List.not_mem_nil, if_false] at hle
    omega
  · next hne =>
    rw [if_neg hne]
    have hle := h id entry hentry
    simp only [countP_append_naming] at hle ⊢
    omega

end CountedBy

end Engine

open Engine

/-! ## Runs -/

namespace Session

/-- The handles, not yet dropped, on whose list the node is. -/
def holding (s : Session V) (id : NodeId) : ℕ := s.handles.countP (id ∈ ·.nodeIds)

/-- The dropped ones whose list is still to be worked off. -/
def waiting (s : Session V) (id : NodeId) : ℕ :=
  s.engine.pendingRemovals.countP (id ∈ ·) + s.removes.countP (id ∈ ·)

/-- Every entry counts no more references than there are handles that hold it. -/
def Covered (s : Session V) : Prop :=
  ∀ id entry, s.engine.graph.entries.get id = some entry →
    entry.refCount ≤ s.holding id + s.waiting id

/-- Nothing is registered, active, guarded or wired. -/
structure Empty (s : Session V) : Prop where
  entries : s.engine.graph.entries = ∅
  active : s.engine.active = ∅
  guards : s.engine.guards = ∅
  deps : s.engine.topology.deps = ∅

theorem covered_iff {s : Session V} : s.Covered ↔
    CountedBy (fun id => s.holding id + s.removes.countP (id ∈ ·)) s.engine := by
  refine forall₃_congr fun id entry _ => ?_
  rw [waiting, ← Nat.add_assoc, Nat.add_right_comm]

/-- Taking a handle away takes it from the holders of the nodes on its list. -/
theorem holding_eraseIdx {s : Session V} {i : ℕ} {handle : SubgraphHandle}
    (h : s.handles[i]? = some handle) (id : NodeId) :
    s.holding id = (s.handles.eraseIdx i).countP (id ∈ ·.nodeIds) + naming handle.nodeIds id := by
  obtain ⟨hlt, rfl⟩ := List.getElem?_eq_some_iff.mp h
  have hperm := (List.getElem_cons_eraseIdx_perm hlt).symm.countP_eq (id ∈ ·.nodeIds)
  rw [holding, hperm, List.countP_cons, naming]
  simp only [decide_eq_true_eq]

/-- A merge adds the handle that the counts of its nodes go with. -/
theorem covered_merge {s : Session V} (h : s.Covered) (descs : List (NodeDescriptor V)) :
    (s.apply (.merge descs)).Covered := by
  rw [covered_iff] at h ⊢
  intro id entry hentry
  have hle := h.merge (SubgraphBuilder.built_ofList descs) id entry hentry
  have hholding : (s.apply (.merge descs)).holding id =
      s.holding id + naming (SubgraphBuilder.ofList descs).nodeIds id := by
    show (s.handles ++ [_]).countP _ = _
    rw [List.countP_append, List.countP_singleton, holding, naming]
    simp only [decide_eq_true_eq]
  show entry.refCount ≤ (s.apply (.merge descs)).holding id + _ + _
  rw [hholding]
  exact hle.trans (by simp only [apply, Nat.add_right_comm]; exact le_refl _)

/-- What a dropped handle held waits in the removal queue. -/
theorem covered_dropHandle {s : Session V} (h : s.Covered) (i : ℕ) :
    (s.apply (.dropHandle i)).Covered := by
  rw [covered_iff] at h ⊢
  cases hi : s.handles[i]? with
  | none =>
    simp only [apply, hi]
    exact h
  | some handle =>
    simp only [apply, hi]
    refine CountedBy.dropHandle fun id entry hentry => (h id entry hentry).trans ?_
    have hhold := holding_eraseIdx hi id
    simp only
    rw [hhold]
    simp only [holding]
    omega

/-- What a dropped remote handle held waits with its `Remove` command. -/
theorem covered_dropRemote {s : Session V} (h : s.Covered) (i : ℕ) :
    (s.apply (.dropRemote i)).Covered := by
  rw [covered_iff] at h ⊢
  cases hi : s.handles[i]? with
  | none =>
    simp only [apply, hi]
    exact h
  | some handle =>
    intro id entry hentry
    simp only [apply, hi] at hentry ⊢
    have hle := h id entry hentry
    simp only [holding_eraseIdx hi] at hle
    simp only [holding]
    split
    · next hnil =>
      simp only [hnil, naming, List.not_mem_nil, if_false] at hle
      omega
    · rw [countP_append_naming]
      omega

theorem covered_apply {s : Session V} (h : s.Covered) {c : Call V}
    (hc : ∀ desc, c ≠ .register desc) : (s.apply c).Covered := by
  have hcounted := covered_iff.mp h
  cases c with
  | graph => exact covered_iff.mpr hcounted.drainPendingRemovals
  | register desc => exact absurd rfl (hc desc)
  | merge descs => exact covered_merge h descs
  | dropHandle i => exact covered_dropHandle h i
  | dropRemote i => exact covered_dropRemote h i
  | remove =>
    cases hr : s.removes with
    | nil =>
      simp only [apply, hr]
      exact h
    -- the count goes down by what the list names, and so does what is waiting
    | cons nodeIds removes =>
      simp only [hr, countP_cons_naming, ← Nat.add_assoc] at hcounted
      rw [covered_iff]
      simp only [apply, hr]
      exact hcounted.release
  | deactivateNode id => exact covered_iff.mpr (hcounted.deactivate id)
  | activateSink id => exact covered_iff.mpr (hcounted.activateSink id)
  | setErrorStrategy id strategy => exact h
  | concurrencyGroup n => exact h
  | interpose => exact h
  | send id value =>
    have hentries := Graph.entries_sendSource s.engine.graph id value
    exact covered_iff.mpr (hcounted.congr hentries rfl)
  | update id value => exact h
  | forward =>
    refine covered_iff.mpr (hcounted.congr (sameNodes_forward s.engine).entries ?_)
    simp only [apply, forward]
    split <;> rfl
  | complete task => exact h
  | runCycle o =>
    have hf := sameFrame_runCycleImpl o false s.engine.drainPendingRemovals
    exact covered_iff.mpr (hcounted.drainPendingRemovals.congr hf.entries hf.pendingRemovals)
  | runCycleParallel o =>
    have hf := sameFrame_runCycleImpl o true s.engine.drainPendingRemovals
    exact covered_iff.mpr (hcounted.drainPendingRemovals.congr hf.entries hf.pendingRemovals)

/-- With nobody left to hold anything, nothing counts one, and everything there is counts one. So
there is nothing. -/
theorem Covered.empty {s : Session V} (h : s.Covered) (hr : s.engine.Represented)
    (hnone : ∀ id, s.holding id + s.waiting id = 0) : s.Empty := by
  have hentries : ∀ id, s.engine.graph.entries.get id = none := by
    intro id
    cases hentry : s.engine.graph.entries.get id with
    | none => rfl
    | some entry =>
      have hle := h id entry hentry
      have hpos := hr.counted id entry hentry
      rw [hnone id] at hle
      omega
  have hactive : s.engine.active = ∅ := by
    refine Finset.eq_empty_of_forall_notMem fun id hid => ?_
    obtain ⟨entry, hentry, -⟩ := hr.deps id hid
    rw [hentries id] at hentry
    exact absurd hentry (by simp)
  refine ⟨FinMap.ext fun id => by rw [hentries id, FinMap.get_empty], hactive, ?_,
    FinMap.ext fun id => ?_⟩
  · refine Finset.eq_empty_of_forall_notMem fun id hid => ?_
    obtain ⟨hid', -⟩ := hr.guards id hid
    rw [hactive] at hid'
    exact Finset.notMem_empty id hid'
  · rw [FinMap.get_empty, ← FinMap.notMem_keys, hr.keys, hactive]
    exact Finset.notMem_empty id

end Session

/-- **Handles leak nothing.** As long as nothing is registered on the graph directly, no entry
counts more references than there are handles for it, not yet dropped and worked off; and when there
are none left, neither is anything else.

In every state of every such run, with both kinds of handles, deferred removals, cascades that come
too early, and ids that are registered again. -/
theorem handles_leak_nothing (calls : List (Call V))
    (h : ∀ c ∈ calls, ∀ desc, c ≠ .register desc) :
    Runs.Always Session.apply
      (fun s => s.Covered ∧
        (s.handles = [] → s.removes = [] → s.engine.pendingRemovals = [] → s.Empty))
      Session.init calls := by
  refine Runs.always_of_invariant (I := fun s : Session V => s.Covered ∧ s.engine.Represented)
    (fun s c hs hc => ⟨Session.covered_apply hs.1 hc, Session.represented_apply hs.2 c⟩)
    (fun s hs => ⟨hs.1, fun hh hr hp => hs.1.empty hs.2 fun id => ?_⟩)
    ⟨fun id entry hentry => ?_, Represented.new⟩ (.of_forall h)
  · simp [Session.init, Engine.new, Graph.new] at hentry
  · simp [Session.holding, Session.waiting, hh, hr, hp]

/-- Two clients share a source; the second is merged before the first is dropped. -/
theorem handles_leak_nothing_shared : Runs.Always Session.apply
    (fun s => s.Covered ∧
      (s.handles = [] → s.removes = [] → s.engine.pendingRemovals = [] → s.Empty))
    Session.init ([.merge [Sample.node .source 0 [], Sample.node .sink 1 [0]],
      .merge [Sample.node .source 0 [], Sample.node .sink 2 [0]], .dropHandle 0, .graph,
      .dropHandle 0, .graph] : List (Call ℕ)) :=
  handles_leak_nothing _ (by simp)

end ReactiveGraph
