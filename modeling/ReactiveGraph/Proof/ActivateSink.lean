import ReactiveGraph.Proof.World

/-!
# What the activation of a sink takes in

`activate_node` goes through the graph depth first and marks as it goes, so what one branch finds
unmarked depends on the branches before it. Still it takes in just what can be reached through nodes
that were inactive when it began: a node marked on the way has been, or is being, descended from.
The recursion ends because every call that goes on marks a registered node (`activates_foldl`), and
along its derivation each source is called when it is marked, and at no other time
(`Activates.invoked`).

**Two descriptions of one recursion.** `Grown` (`Activation.lean`) compares the engine before and
after and knows nothing of calls. `Activates` is a derivation of the recursion without fuel, one
rule for each thing a call can do, and the effects are followed along it. The main result takes the
active set from the first and the callbacks from the second.

Which nodes are missing upstream is said with the state before (`MissingUpstream`): dormant nodes,
registered and not active, linked by dependencies of their entries. That the recursion, which looks
at marks it has made itself, comes to the same is the content of `missingUpstream_iff`, and is where
the depth-first argument is.

`activateSink_exact` supposes that there is nothing to drain. With removals waiting, `activate_sink`
drains them first, and the result speaks of the engine after the drain. It asks nothing else: the
graph may have cycles, a dependency may not be registered, and the node need not be a sink, or be
registered at all, in which case nothing happens.
-/

namespace ReactiveGraph

namespace Engine

open Relation

variable {V : Type*} {e e' : Engine V} {id : NodeId}

/-! ## The recursion ends -/

/-- **With fuel for every inactive node the recursion ends as the one without fuel does.** By
induction on the fuel and, within it, on the list: an active or unregistered node takes none, and
any other makes one node fewer inactive. The fold is the loop over the dependencies, so the
statement is about lists from the start. -/
theorem activates_foldl (n : ℕ) (ids : List NodeId) (hn : e.inactive ≤ n) :
    Activates ids e (ids.foldl (fun e id => activateNode n id e) e) := by
  induction n generalizing ids e with
  | zero =>
    induction ids with
    | nil => exact .nil
    | cons id ids ih =>
      -- no fuel: nothing inactive is registered, so the node is either active or unknown
      by_cases hid : id ∈ e.active
      · exact .active hid ih
      · refine .unregistered hid (FinMap.notMem_keys.mp fun hreg => ?_) ih
        have hpos : 0 < e.inactive := Finset.card_pos.mpr ⟨id, Finset.mem_sdiff.mpr ⟨hreg, hid⟩⟩
        omega
  | succ n ih =>
    induction ids generalizing e with
    | nil => exact .nil
    | cons id ids ihids =>
      rw [List.foldl_cons]
      -- the loop over the rest keeps the fuel it had, since an activation makes no node inactive
      have hrest := ihids (e := activateNode (n + 1) id e)
        ((grown_activateNode (n + 1) hn).1.inactive_le.trans hn)
      by_cases hid : id ∈ e.active
      · rw [activateNode, if_pos hid] at hrest ⊢
        exact .active hid hrest
      · rw [activateNode, if_neg hid] at hrest ⊢
        cases hentry : e.graph.entries.get id with
        | none =>
          simp only [hentry] at hrest ⊢
          exact .unregistered hid hentry hrest
        | some entry =>
          simp only [hentry] at hrest ⊢
          have hlt := inactive_markActive_lt hid (FinMap.mem_keys_of_get hentry) entry.deps
          exact .node hid hentry (ih entry.deps (by omega)) hrest

theorem activates_activate (e : Engine V) (id : NodeId) : Activates [id] e (e.activate id) :=
  activates_foldl _ [id] e.inactive_le

/-! ## What is reached -/

/-- Registered, and not active: what an activation can take in. -/
def Dormant (e : Engine V) (v : NodeId) : Prop := v ∈ e.graph.entries.keys ∧ v ∉ e.active

/-- `v` is reached from `id` along dependencies, from one dormant node to the next; `id` and `v` are
dormant themselves. A path that could only pass through an active node does not count, although what
lies beyond it may be dormant. -/
def MissingUpstream (e : Engine V) (id v : NodeId) : Prop :=
  e.Dormant id ∧ ReflTransGen (fun w u => u ∈ e.graph.depsOf w ∧ e.Dormant u) id v

theorem MissingUpstream.dormant {v : NodeId} (h : e.MissingUpstream id v) : e.Dormant v := by
  obtain ⟨hid, hpath⟩ := h
  cases hpath with
  | refl => exact hid
  | tail _ hlast => exact hlast.2

/-- An activation comes to what is missing upstream, and beyond that to what it stops at. -/
theorem missingUpstream_iff {v : NodeId} :
    e.MissingUpstream id v ↔ e.Dormant v ∧ e.Visits id v := by
  constructor
  · intro h
    refine ⟨h.dormant, ?_⟩
    obtain ⟨hid, hpath⟩ := h
    induction hpath with
    | refl => exact .refl
    | tail hpath hlast ih => exact .head ⟨(MissingUpstream.dormant ⟨hid, hpath⟩).2, hlast.1⟩ ih
  · rintro ⟨hv, hvisit⟩
    induction hvisit using ReflTransGen.head_induction_on with
    | refl => exact ⟨hv, .refl⟩
    | head huw _ ih =>
      obtain ⟨hid, hpath⟩ := ih ⟨mem_keys_of_reads huw.2, huw.1⟩
      exact ⟨hid, hpath.tail ⟨huw.2, hv⟩⟩

/-- **What is active afterwards** was active, or was missing upstream. From left to right this is
the bound of `Grown`; from right to left, that what is visited from an active node is active if it
is registered. -/
theorem mem_active_activate {v : NodeId} :
    v ∈ (e.activate id).active ↔ v ∈ e.active ∨ e.MissingUpstream id v := by
  obtain ⟨hg, hid⟩ := grown_activate e id
  rw [missingUpstream_iff]
  constructor
  · intro hv
    by_cases hva : v ∈ e.active
    · exact Or.inl hva
    · exact Or.inr ⟨⟨hg.registered v hv hva, hva⟩, hg.bound v hv hva⟩
  · rintro (hv | ⟨⟨hreg, hva⟩, hvisit⟩)
    · exact hg.mono hv
    · -- A visited node other than `id` is a dependency, so `id` is registered either way.
      have hregid : id ∈ e.graph.entries.keys := by
        rcases ReflTransGen.cases_tail hvisit with heq | ⟨w, -, hw⟩
        · exact heq ▸ hreg
        · exact mem_keys_of_reads hw.2
      exact hg.mem_of_visits (hid hregid) hvisit hreg

/-! ## Which callbacks are called -/

/-- A source with an activation callback to call. One made by a builder without a callback has none,
and is activated without a call. -/
def HasActivation (graph : Graph V) (v : NodeId) : Prop :=
  ∃ entry, graph.entries.get v = some entry ∧ entry.kind = .source ∧
    (entry.nodeImpl.activate v).isSome

theorem HasActivation.congr {graph graph' : Graph V} (h : graph'.entries = graph.entries)
    (v : NodeId) : HasActivation graph' v ↔ HasActivation graph v := by
  unfold HasActivation
  rw [h]

/-- Finishing a node calls its callback, if it is a source that has one, and no other. -/
theorem activations_finishActivation {entry : NodeEntry V}
    (hentry : e.graph.entries.get id = some entry) :
    ∃ invoked : List NodeId, activations (e.finishActivation id entry.kind).effects =
        activations e.effects ++ invoked ∧ invoked.Nodup ∧
      ∀ v, v ∈ invoked ↔ v = id ∧ HasActivation e.graph v := by
  have hcall : ∀ v, v = id ∧ HasActivation e.graph v ↔
      v = id ∧ entry.kind = .source ∧ (entry.nodeImpl.activate id).isSome := by
    rintro v
    constructor
    · rintro ⟨rfl, entry', hentry', hkind, hsome⟩
      obtain rfl := Option.some.inj (hentry.symm.trans hentry')
      exact ⟨rfl, hkind, hsome⟩
    · rintro ⟨rfl, hkind, hsome⟩
      exact ⟨rfl, entry, hentry, hkind, hsome⟩
  simp only [hcall]
  cases hkind : entry.kind with
  | source =>
    cases hact : entry.nodeImpl.activate id with
    | none =>
      refine ⟨[], ?_, List.nodup_nil, by simp⟩
      simp [finishActivation, invokeActivate, hentry, hact]
    | some values =>
      refine ⟨[id], ?_, List.nodup_singleton id, by simp⟩
      simp [finishActivation, invokeActivate, hentry, hact, activations, Effect.activation]
  | compute =>
    refine ⟨[], ?_, List.nodup_nil, by simp⟩
    simp only [finishActivation, initialCompute, hentry]
    split
    · split <;> simp [record, setStore, activations, Effect.activation]
    · simp
  | sink => exact ⟨[], by simp [finishActivation], List.nodup_nil, by simp⟩
  | asyncCompute => exact ⟨[], by simp [finishActivation], List.nodup_nil, by simp⟩

/-- What a run of the recursion leaves as it was, and that it only marks. -/
theorem Activates.grows {ids : List NodeId} (h : Activates ids e e') :
    e'.graph.entries = e.graph.entries ∧ e.active ⊆ e'.active := by
  induction h with
  | nil => exact ⟨rfl, Finset.Subset.refl _⟩
  | active _ _ ih => exact ih
  | unregistered _ _ _ ih => exact ih
  | @node e e₁ e' id ids entry _ _ _ _ ihdeps ihrest =>
    obtain ⟨hentries, hmono⟩ := ihdeps
    obtain ⟨hentries', hmono'⟩ := ihrest
    refine ⟨?_, ?_⟩
    · rw [hentries', (sameRest_finishActivation e₁ id entry.kind).entries, hentries]
      rfl
    · rw [(topology_finishActivation e₁ id entry.kind).2] at hmono'
      exact (Finset.subset_insert id e.active).trans (hmono.trans hmono')

/-- **Each source is called when it is marked.** The calls of a run are one for every node with a
callback that the run has marked: of the node itself last, after those of its dependencies and
before those of the nodes that are activated after it.

By induction on the derivation. A node that is active already contributes nothing; a node that is
marked contributes what its dependencies do, then itself, then the rest, and the three are disjoint
since each marks what the others find marked. -/
theorem Activates.invoked {ids : List NodeId} (h : Activates ids e e') :
    ∃ invoked : List NodeId, activations e'.effects = activations e.effects ++ invoked ∧
      invoked.Nodup ∧
        ∀ v, v ∈ invoked ↔ (v ∈ e'.active ∧ v ∉ e.active) ∧ HasActivation e.graph v := by
  induction h with
  | nil => exact ⟨[], by simp, List.nodup_nil, by simp⟩
  | active _ _ ih => exact ih
  | unregistered _ _ _ ih => exact ih
  | @node e e₁ e' id ids entry hid hentry hdeps hrest ihdeps ihrest =>
    obtain ⟨below, hbelow, hnodup, hmem⟩ := ihdeps
    obtain ⟨later, hlater, hnodup', hmem'⟩ := ihrest
    have hents : e₁.graph.entries = e.graph.entries := hdeps.grows.1
    have hentry₁ : e₁.graph.entries.get id = some entry := by rw [hents, hentry]
    obtain ⟨own, hown, hnodup₀, hmem₀⟩ := activations_finishActivation hentry₁
    have hact := (topology_finishActivation e₁ id entry.kind).2
    have hmono := hrest.grows.2
    rw [hact] at hmono
    have hself : id ∈ e₁.active := hdeps.grows.2 (Finset.mem_insert_self _ _)
    have hmark : ∀ v, v ∈ (e.markActive id entry.deps).active ↔ v = id ∨ v ∈ e.active :=
      fun v => Finset.mem_insert
    have hcall := HasActivation.congr hents
    have hcall' := HasActivation.congr
      ((sameRest_finishActivation e₁ id entry.kind).entries.trans hents)
    have hbelow' : ∀ v, v ∈ below ↔ (v ∈ e₁.active ∧ ¬ (v = id ∨ v ∈ e.active)) ∧
        HasActivation e.graph v := fun v => by
      rw [hmem, hmark]
      rfl
    have hown' : ∀ v, v ∈ own ↔ v = id ∧ HasActivation e.graph v := fun v => by rw [hmem₀, hcall]
    have hlater' : ∀ v, v ∈ later ↔ (v ∈ e'.active ∧ v ∉ e₁.active) ∧ HasActivation e.graph v :=
      fun v => by rw [hmem', hact, hcall']
    refine ⟨below ++ own ++ later, ?_, ?_, fun v => ?_⟩
    · rw [hlater, hown, hbelow, List.append_assoc, List.append_assoc, List.append_assoc]
      rfl
    · -- What is called below was not the node, and what is called later was not marked by then.
      refine List.nodup_append.mpr ⟨List.nodup_append.mpr ⟨hnodup, hnodup₀, ?_⟩, hnodup', ?_⟩
      · rintro v hv _ hv' rfl
        exact ((hbelow' v).mp hv).1.2 (Or.inl ((hown' v).mp hv').1)
      · rintro v hv _ hv' rfl
        refine ((hlater' v).mp hv').1.2 ?_
        rcases List.mem_append.mp hv with hv | hv
        · exact ((hbelow' v).mp hv).1.1
        · exact ((hown' v).mp hv).1 ▸ hself
    · rw [List.mem_append, List.mem_append, hbelow', hown', hlater']
      by_cases hvid : v = id
      · subst hvid
        simp [hself, hid, hmono hself]
      · by_cases hv₁ : v ∈ e₁.active
        · simp [hvid, hv₁, hmono hv₁]
        · have hold : v ∉ e.active := fun hv =>
            hv₁ (hdeps.grows.2 (Finset.mem_insert_of_mem hv))
          simp [hvid, hv₁, hold]

/-- **Activation is exactly the missing upstream closure.** The recursion ends; it activates what is
missing upstream and nothing else; the callbacks it calls are those of the sources among that, each
once; and no entry changes.

The hypothesis says that no removal is waiting, so `activate_sink` begins with the engine as it is.
Of the order of the calls nothing is said beyond their being without repetition; of values, see
`Grown`. -/
theorem activateSink_exact (e : Engine V) (hp : e.pendingRemovals = []) (id : NodeId) :
    Activates [id] e (e.activateSink id) ∧
      (∀ v, v ∈ (e.activateSink id).active ↔ v ∈ e.active ∨ e.MissingUpstream id v) ∧
      (∃ invoked : List NodeId, activations (e.activateSink id).effects =
          activations e.effects ++ invoked ∧ invoked.Nodup ∧
        ∀ v, v ∈ invoked ↔ e.MissingUpstream id v ∧ HasActivation e.graph v) ∧
      (e.activateSink id).graph.entries = e.graph.entries := by
  rw [activateSink, drainPendingRemovals_of_nil hp]
  have hrun := activates_activate e id
  refine ⟨hrun, fun v => mem_active_activate, ?_, hrun.grows.1⟩
  obtain ⟨invoked, hinvoked, hnodup, hmem⟩ := hrun.invoked
  refine ⟨invoked, hinvoked, hnodup, fun v => ?_⟩
  rw [hmem, mem_active_activate]
  constructor
  · rintro ⟨⟨hv | hv, hva⟩, hcall⟩
    · exact absurd hv hva
    · exact ⟨hv, hcall⟩
  · rintro ⟨hv, hcall⟩
    exact ⟨⟨Or.inr hv, hv.dormant.2⟩, hcall⟩

open Sample in
/-- A sink above two nodes that read each other, one of them a source with a callback as well and
the other a node that is not registered. No derivation of the recursion would end if it did not mark
before it descends. -/
def tangle : Engine ℕ := (new : Engine ℕ).registerAll
  [⟨nodeId 0, .source, [], { impl with activate := fun _ => some [7] }⟩, node .compute 1 [0, 2],
    node .compute 2 [1, 9], node .sink 3 [2, 1], node .source 4 []]

open Sample in
theorem activateSink_exact_tangle :
    Activates [nodeId 3] tangle (tangle.activateSink (nodeId 3)) ∧
      (tangle.activateSink (nodeId 3)).active = [nodeId 0, nodeId 1, nodeId 2, nodeId 3].toFinset ∧
      activations (tangle.activateSink (nodeId 3)).effects = [nodeId 0] :=
  ⟨(activateSink_exact tangle rfl (nodeId 3)).1, by decide +kernel, by decide +kernel⟩

end Engine

end ReactiveGraph
