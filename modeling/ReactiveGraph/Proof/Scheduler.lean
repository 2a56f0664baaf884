import ReactiveGraph.Lib.Dataflow
import ReactiveGraph.Model.Scheduler
import ReactiveGraph.Proof.Topology

/-!
# What the wave loop does

The nodes the loop has run so far, wave after wave, are a list, and the loop is described by what it
keeps of that list (`Inv`): it has no duplicates, every node in it comes after its dirty
dependencies, and the ready count of a node is the number of its dirty dependencies less the edges
into it from the list. The arithmetic is that of `topoSort`, and so is what the loop needs of the
edge maps: an edge may not be listed more often among the dependents than among the dependencies, or
a count reaches zero too early.

Whatever else is to be carried through the loop is carried by `loop_induction`: which nodes were
called (`nodeId_effects`), and, where a node's result depends only on its dependencies' values,
which values were read and written (`Values`). A wave reads one store and a sequence of nodes reads
one after the other, but the nodes of a wave are not each other's dependencies.

**The order within a wave is free.** The walk of a wave is any list of its members, and the list of
nodes that were run is put together from these walks. Every statement here is over all of them: what
is said of the list is said of whichever came about, and where a result is about the store alone the
list is gone from it.

**The loop may end early.** A node that waits for a dirty node which is not among those to run is
never ready, and neither is anything downstream of it. `Ran` has this as a clause about counts,
`Ran.mem_iff` says it in terms of the graph. For a cycle without async nodes nothing is left out;
what else can be left out, and when, is for `Parallel.lean` to say.

The effects of a wave are recorded in the order of its walk. No result reads anything into that
order beyond its being an order.
-/

namespace ReactiveGraph

namespace Scheduler

variable {V : Type*} {t : Topology} {dirty : Finset NodeId} {nodes : List NodeId}
  {entries : FinMap NodeId (NodeEntry V)} {st : WaveState V} {done r : List NodeId}

open Kahn (need used)

/-! ## Counting -/

theorem get_readyCounts (t : Topology) (nodes : List NodeId) (dirty : Finset NodeId) (v : NodeId) :
    (readyCounts t nodes dirty).get v =
      if v ∈ nodes then some (need t.depsOf dirty v) else none := by
  unfold readyCounts
  have hempty : (∅ : FinMap NodeId ℕ).get v = none := FinMap.get_empty v
  rw [← hempty]
  generalize (∅ : FinMap NodeId ℕ) = m
  induction nodes generalizing m with
  | nil => simp
  | cons x nodes ih =>
    have hneed : need t.depsOf dirty x = ((t.deps.get x).getD []).countP (· ∈ dirty) := rfl
    refine (ih _).trans ?_
    cases hdeps : t.deps.get x <;>
    · rw [hdeps] at hneed
      simp only [hdeps, FinMap.get_insert]
      by_cases hv : v = x
      · subst hv
        simp [hneed]
      · simp [hv]

theorem get_foldl_lower (l : List NodeId) (m : FinMap NodeId ℕ) (v : NodeId) :
    (l.foldl lower m).get v = (m.get v).map (· - l.count v) := by
  induction l generalizing m with
  | nil => simp
  | cons x l ih =>
    rw [List.foldl_cons, ih, lower]
    cases hx : m.get x with
    | none =>
      by_cases hv : v = x
      · rw [hv, hx]; rfl
      · rw [List.count_cons_of_ne (Ne.symm hv)]
    | some count =>
      simp only [FinMap.get_insert]
      by_cases hv : v = x
      · subst hv
        rw [if_pos rfl, hx, List.count_cons_self]
        simp only [Option.map_some, Option.some.injEq]
        omega
      · rw [if_neg hv, List.count_cons_of_ne (Ne.symm hv)]

/-- What writing the results of a wave does, apart from the store: no calls, the nodes of the wave
no longer remain, and every count is lower by the edges from the wave. -/
theorem foldl_writeResult (results : List (NodeId × Option V)) (st : WaveState V) :
    (results.foldl (writeResult t) st).effects = st.effects ∧
      (∀ v, v ∈ (results.foldl (writeResult t) st).remaining ↔
        v ∈ st.remaining ∧ v ∉ results.map Prod.fst) ∧
      (∀ v, (results.foldl (writeResult t) st).readyCount.get v =
        (st.readyCount.get v).map (· - used t.dependentsOf (results.map Prod.fst) v)) := by
  induction results generalizing st with
  | nil => exact ⟨rfl, by simp, by simp [used]⟩
  | cons x results ih =>
    obtain ⟨h1, h2, h3⟩ := ih (writeResult t st x)
    rw [List.foldl_cons]
    refine ⟨h1, fun v => ?_, fun v => ?_⟩
    · rw [h2 v, writeResult, Finset.mem_erase, List.map_cons, List.mem_cons, not_or]
      tauto
    · rw [h3 v, writeResult, get_foldl_lower, Option.map_map]
      congr 1
      funext n
      simp only [Function.comp_apply, used, List.map_cons, List.sum_cons]
      omega

/-- The store after the results of distinct nodes have been written. In which order they are written
does not show, since no two are for one node. -/
theorem store_foldl_writeResult {results : List (NodeId × Option V)}
    (hnd : (results.map Prod.fst).Nodup) (st : WaveState V) :
    (∀ v, v ∉ results.map Prod.fst →
      (results.foldl (writeResult t) st).store.getById v = st.store.getById v) ∧
    ∀ v result, (v, result) ∈ results →
      (results.foldl (writeResult t) st).store.getById v = result.or (st.store.getById v) := by
  induction results generalizing st with
  | nil => exact ⟨fun _ _ => rfl, by simp⟩
  | cons x results ih =>
    obtain ⟨hx, hnd⟩ := List.nodup_cons.mp hnd
    obtain ⟨hout, hin⟩ := ih hnd (writeResult t st x)
    -- one write: a node without a result keeps what it has
    have hstore : ∀ v, (writeResult t st x).store.getById v =
        if v = x.1 then x.2.or (st.store.getById v) else st.store.getById v := by
      intro v
      unfold writeResult
      cases x.2 with
      | none => simp
      | some value =>
        simp only [ValueStore.getById_setById, Option.some_or]
    rw [List.foldl_cons]
    refine ⟨fun v hv => ?_, fun v result hv => ?_⟩
    · rw [List.map_cons, List.mem_cons, not_or] at hv
      rw [hout v hv.2, hstore, if_neg hv.1]
    · rcases List.mem_cons.mp hv with rfl | hv
      · rw [hout _ hx, hstore, if_pos rfl]
      · have hne : v ≠ x.1 := by
          rintro rfl
          exact hx (List.mem_map.mpr ⟨_, hv, rfl⟩)
        rw [hin v result hv, hstore, if_neg hne]

/-! ## What the loop keeps -/

/-- The loop invariant, with the nodes run so far. The ready count is an equation and not a bound,
with the natural numbers' subtraction for the saturating one of the source. -/
structure Inv (t : Topology) (dirty : Finset NodeId) (nodes : List NodeId) (st : WaveState V)
    (done : List NodeId) : Prop where
  nodup : done.Nodup
  subset : ∀ v ∈ done, v ∈ nodes
  remaining : ∀ v, v ∈ st.remaining ↔ v ∈ nodes ∧ v ∉ done
  readyCount : ∀ v ∈ nodes, st.readyCount.get v =
    some (need t.depsOf dirty v - used t.dependentsOf done v)
  ordered : Dag.Ordered t.depsOf (· ∈ dirty) done

/-- What is known of the nodes of the next wave: they are to run and have not run, and their dirty
dependencies have. It follows from `Inv` and from their counts being zero. -/
structure NextWave (t : Topology) (dirty : Finset NodeId) (nodes done r : List NodeId) :
    Prop where
  nodup : r.Nodup
  subset : ∀ v ∈ r, v ∈ nodes
  fresh : ∀ v ∈ r, v ∉ done
  deps : ∀ v ∈ r, ∀ u ∈ t.depsOf v, u ∈ dirty → u ∈ done

theorem Inv.start (t : Topology) (dirty : Finset NodeId) (nodes : List NodeId)
    (store : ValueStore V) :
    Inv t dirty nodes ⟨store, readyCounts t nodes dirty, nodes.toFinset, []⟩ [] where
  nodup := List.nodup_nil
  subset := by simp
  remaining := by simp
  readyCount v hv := by simp [get_readyCounts, hv, used]
  ordered := .nil

theorem Inv.ready (h : Inv t dirty nodes st done) (hle : t.AtMost)
    (hdirty : ∀ v ∈ nodes, v ∈ dirty) (walk : IterOrder) :
    NextWave t dirty nodes done (ready walk st) := by
  have hmem : ∀ v ∈ Scheduler.ready walk st, v ∈ st.remaining ∧ (st.readyCount.get v).getD 0 = 0 := by
    intro v hv
    obtain ⟨hrem, hzero⟩ := List.mem_filter.mp hv
    exact ⟨(walk.mem_iter _ _).mp hrem, by simpa using hzero⟩
  refine ⟨(walk.nodup_iter _).filter _, fun v hv => ((h.remaining v).mp (hmem v hv).1).1,
    fun v hv => ((h.remaining v).mp (hmem v hv).1).2, fun v hv => ?_⟩
  obtain ⟨hrem, hzero⟩ := hmem v hv
  rw [h.readyCount v ((h.remaining v).mp hrem).1, Option.getD_some] at hzero
  exact Kahn.mem_of_need_le hle h.nodup (fun u hu => hdirty u (h.subset u hu)) (by omega)

theorem Inv.wave (h : Inv t dirty nodes st done) (hr : NextWave t dirty nodes done r) :
    Inv t dirty nodes (wave entries t r st) (done ++ r) := by
  obtain ⟨-, hrem, hcount⟩ := foldl_writeResult (t := t)
    ((r.map fun id => (id, executeSingle entries st.store id)).map fun x => (x.1, x.2.1))
    { st with
      effects := st.effects ++
        (r.map fun id => (id, executeSingle entries st.store id)).flatMap fun x => x.2.2 }
  have hfst : ((r.map fun id => (id, executeSingle entries st.store id)).map
      fun x => (x.1, x.2.1)).map Prod.fst = r := by simp [Function.comp_def]
  rw [hfst] at hrem hcount
  refine ⟨?_, fun v hv => ?_, fun v => ?_, fun v hv => ?_, h.ordered.append hr.deps⟩
  · refine List.nodup_append.mpr ⟨h.nodup, hr.nodup, ?_⟩
    rintro a ha b hb rfl
    exact hr.fresh a hb ha
  · exact (List.mem_append.mp hv).elim (h.subset v) (hr.subset v)
  · refine (hrem v).trans ?_
    rw [h.remaining v, List.mem_append, not_or, and_assoc]
  · refine (hcount v).trans ?_
    rw [h.readyCount v hv]
    simp only [Option.map_some, Option.some.injEq, used, List.map_append, List.sum_append]
    omega

theorem effects_wave (entries : FinMap NodeId (NodeEntry V)) (r : List NodeId)
    (st : WaveState V) : (wave entries t r st).effects =
      st.effects ++ r.flatMap fun id => (executeSingle entries st.store id).2 := by
  unfold wave
  rw [(foldl_writeResult _ _).1, List.flatMap_map]

/-- **The rule for the wave loop**, with fuel for every remaining node: what every wave keeps holds
in the end of the nodes that were run, and a node that was not run has a dirty dependency that was
not.

The induction is on the fuel. A wave that is not empty takes a node from those that remain; an empty
one ends the loop, and then every remaining node has a count above zero. -/
theorem loop_induction {Q : WaveState V → List NodeId → Prop} (hle : t.AtMost)
    (hdirty : ∀ v ∈ nodes, v ∈ dirty)
    (step : ∀ st done r, Inv t dirty nodes st done → NextWave t dirty nodes done r → Q st done →
      Q (wave entries t r st) (done ++ r))
    (walks : ℕ → IterOrder) (n : ℕ) (h : Inv t dirty nodes st done) (hQ : Q st done)
    (hn : st.remaining.card ≤ n) :
    ∃ done', Inv t dirty nodes (loop walks entries t n st) done' ∧
      Q (loop walks entries t n st) done' ∧
      ∀ v ∈ nodes, v ∉ done' → used t.dependentsOf done' v < need t.depsOf dirty v := by
  induction n generalizing st done with
  | zero =>
    refine ⟨done, h, hQ, fun v hv hnot => ?_⟩
    have hrem : st.remaining = ∅ := Finset.card_eq_zero.mp (by omega)
    have hmem := (h.remaining v).mpr ⟨hv, hnot⟩
    rw [hrem] at hmem
    exact absurd hmem (Finset.notMem_empty v)
  | succ n ih =>
    rw [loop]
    split
    · next hempty =>
      refine ⟨done, h, hQ, fun v hv hnot => ?_⟩
      have hmem := (h.remaining v).mpr ⟨hv, hnot⟩
      rw [hempty] at hmem
      exact absurd hmem (Finset.notMem_empty v)
    · split
      · next hready =>
        refine ⟨done, h, hQ, fun v hv hnot => ?_⟩
        by_contra hc
        -- a count that is used up would have made the node ready
        have hmem : v ∈ ready (walks n) st := by
          refine List.mem_filter.mpr ⟨?_, ?_⟩
          · exact ((walks n).mem_iter _ _).mpr ((h.remaining v).mpr ⟨hv, hnot⟩)
          · rw [h.readyCount v hv, Option.getD_some, decide_eq_true_eq]
            omega
        rw [hready] at hmem
        exact absurd hmem List.not_mem_nil
      · next hready =>
        have hr := h.ready hle hdirty (walks n)
        have h' : Inv t dirty nodes (wave entries t (ready (walks n) st) st) (done ++ _) := h.wave hr
        refine ih h' (step st done _ h hr hQ) ?_
        obtain ⟨v, hv⟩ := List.exists_mem_of_ne_nil _ hready
        have hlt : (wave entries t (ready (walks n) st) st).remaining.card < st.remaining.card := by
          refine Finset.card_lt_card ⟨fun u hu => ?_, fun hsub => ?_⟩
          · obtain ⟨hun, hud⟩ := (h'.remaining u).mp hu
            exact (h.remaining u).mpr ⟨hun, fun hd => hud (List.mem_append_left _ hd)⟩
          · have hvrem := hsub ((h.remaining v).mpr ⟨hr.subset v hv, hr.fresh v hv⟩)
            exact ((h'.remaining v).mp hvrem).2 (List.mem_append_right _ hv)
        omega

/-! ## Which nodes are run -/

/-- What the scheduler has run when it is through: a list of nodes in dependency order, and for
those that are left a count that was never reached. -/
structure Ran (t : Topology) (dirty : Finset NodeId) (nodes done : List NodeId) : Prop where
  nodup : done.Nodup
  subset : ∀ v ∈ done, v ∈ nodes
  ordered : Dag.Ordered t.depsOf (· ∈ dirty) done
  rest : ∀ v ∈ nodes, v ∉ done → used t.dependentsOf done v < need t.depsOf dirty v

/-- The rule for the whole execution. What is to be carried is started at the initial counts and the
store as it comes. -/
theorem executeParallel_induction {Q : WaveState V → List NodeId → Prop} {store : ValueStore V}
    (hle : t.AtMost) (hdirty : ∀ v ∈ nodes, v ∈ dirty)
    (start : Q ⟨store, readyCounts t nodes dirty, nodes.toFinset, []⟩ [])
    (step : ∀ st done r, Inv t dirty nodes st done → NextWave t dirty nodes done r → Q st done →
      Q (wave entries t r st) (done ++ r)) (walks : ℕ → IterOrder) :
    ∃ st done, executeParallel walks entries store t nodes dirty = (st.store, st.effects) ∧
      Ran t dirty nodes done ∧ Q st done := by
  obtain ⟨done, hinv, hQ, hrest⟩ := loop_induction hle hdirty step walks nodes.length
    (Inv.start t dirty nodes store) start (List.toFinset_card_le nodes)
  exact ⟨_, done, rfl, ⟨hinv.nodup, hinv.subset, hinv.ordered, hrest⟩, hQ⟩

/-- **What is run is what does not wait for a dirty node that is not run here**: the early exit of
the loop leaves exactly the nodes downstream of one.

From left to right, a node that was run has all its dirty dependencies run, down to one that is not
to run at all. From right to left, a node that was left has a dependency that was left, and going on
like this ends, since there is no cycle, at a dirty node that is not to run. -/
theorem Ran.mem_iff (h : Ran t dirty nodes done) (hle : t.AtMost)
    (hex : Kahn.ExactOn t.depsOf t.dependentsOf dirty)
    (hac : Dag.Acyclic fun u v => u ∈ t.depsOf v) (hdirty : ∀ v ∈ nodes, v ∈ dirty)
    (hclosed : ∀ u ∈ dirty, ∀ v ∈ t.dependentsOf u, v ∈ dirty) {v : NodeId} :
    v ∈ done ↔ v ∈ nodes ∧ ∀ a ∈ dirty, a ∉ nodes → ¬ t.Downstream a v := by
  constructor
  · intro hv
    refine ⟨h.subset v hv, fun a ha hnot had => hnot (h.subset a ?_)⟩
    -- along the path everything is dirty, so everything before `v` has been run, too
    clear hnot
    induction had using Relation.TransGen.head_induction_on with
    | single hav => exact h.ordered.mem hv (hle.mem_depsOf hav) ha
    | head hab _ ih => exact h.ordered.mem (ih (hclosed _ ha _ hab)) (hle.mem_depsOf hab) ha
  · rintro ⟨hv, hfree⟩
    by_contra hnot
    classical
    obtain ⟨m, hm, hmin⟩ := hac.exists_min (D := dirty.filter fun x =>
      (x ∈ nodes ∧ ∀ a ∈ dirty, a ∉ nodes → ¬ t.Downstream a x) ∧ x ∉ done)
      ⟨v, Finset.mem_filter.mpr ⟨hdirty v hv, ⟨hv, hfree⟩, hnot⟩⟩
    obtain ⟨hmd, ⟨hmn, hmfree⟩, hmdone⟩ := Finset.mem_filter.mp hm
    obtain ⟨u, hu, hud, hunot⟩ := Kahn.exists_missing h.nodup
      (fun x hx => hdirty x (h.subset x hx)) hex hmd (h.rest m hmn hmdone)
    have hum : m ∈ t.dependentsOf u :=
      List.count_pos_iff.mp (by rw [hex u hud m hmd]; exact List.count_pos_iff.mpr hu)
    refine hmin u (Finset.mem_filter.mpr ⟨hud, ⟨?_, fun a ha hnot' hau => ?_⟩, hunot⟩) hu
    · by_contra hun
      exact hmfree u hud hun (.single hum)
    · exact hmfree a ha hnot' (hau.tail hum)

/-- The node is registered as one the scheduler makes a call for. A dirty source, which is passed
over, and a dirty node that is not registered are run without one. -/
def called (entries : FinMap NodeId (NodeEntry V)) (id : NodeId) : Bool :=
  match entries.get id with
  | some entry => entry.kind = .compute ∨ entry.kind = .sink
  | none => false

theorem nodeId_executeSingle (entries : FinMap NodeId (NodeEntry V)) (store : ValueStore V)
    (id : NodeId) : (executeSingle entries store id).2.map Effect.nodeId =
      if called entries id then [id] else [] := by
  unfold executeSingle called
  cases entries.get id with
  | none => rfl
  | some entry => cases hk : entry.kind <;> simp [hk, Effect.nodeId]

theorem nodeId_flatMap_executeSingle (entries : FinMap NodeId (NodeEntry V)) (store : ValueStore V)
    (r : List NodeId) : (r.flatMap fun id => (executeSingle entries store id).2).map Effect.nodeId =
      r.filter (called entries) := by
  induction r with
  | nil => rfl
  | cons x r ih =>
    rw [List.flatMap_cons, List.map_append, ih, nodeId_executeSingle, List.filter_cons]
    split <;> rfl

/-- **Each node run is called once, in the order of the run.** So a node is called twice only if it
were run twice, and the list has no duplicates. -/
theorem nodeId_executeParallel (hle : t.AtMost) (hdirty : ∀ v ∈ nodes, v ∈ dirty)
    (entries : FinMap NodeId (NodeEntry V)) (store : ValueStore V) (walks : ℕ → IterOrder) :
    ∃ done, Ran t dirty nodes done ∧
      (executeParallel walks entries store t nodes dirty).2.map Effect.nodeId =
        done.filter (called entries) := by
  have hstart : ((⟨store, readyCounts t nodes dirty, nodes.toFinset, []⟩ :
      WaveState V).effects.map Effect.nodeId) = [].filter (called entries) := rfl
  obtain ⟨st, done, heq, hran, hQ⟩ := executeParallel_induction
    (Q := fun st done => st.effects.map Effect.nodeId = done.filter (called entries)) hle hdirty
    hstart (fun st done r _ _ h => by
      rw [effects_wave, List.map_append, h, nodeId_flatMap_executeSingle, List.filter_append]) walks
  exact ⟨done, hran, by rw [heq]; exact hQ⟩

/-! ## What is read and written -/

open Dataflow (evalAll)

/-- The store after one node has been run. -/
def singleStore (entries : FinMap NodeId (NodeEntry V)) (id : NodeId) (store : ValueStore V) :
    ValueStore V :=
  match (executeSingle entries store id).1 with
  | some value => store.setById id value
  | none => store

theorem getById_singleStore_self (id : NodeId) (store : ValueStore V) :
    (singleStore entries id store).getById id =
      (executeSingle entries store id).1.or (store.getById id) := by
  unfold singleStore
  cases (executeSingle entries store id).1 with
  | none => rfl
  | some value => rw [ValueStore.getById_setById_self, Option.some_or]

theorem emissions_append (id : NodeId) (a b : List (Effect V)) :
    emissions id (a ++ b) = emissions id a ++ emissions id b := List.filterMap_append

/-- What running a node in `store` emits. -/
def emissionOf (entries : FinMap NodeId (NodeEntry V)) (store : ValueStore V) (id : NodeId) :
    List (List (Option V)) :=
  match entries.get id with
  | some entry => if entry.kind = .sink then [store.reads entry.deps] else []
  | none => []

theorem emissions_executeSingle (entries : FinMap NodeId (NodeEntry V)) (store : ValueStore V)
    (id v : NodeId) : emissions v (executeSingle entries store id).2 =
      if id = v then emissionOf entries store v else [] := by
  unfold executeSingle emissions emissionOf
  by_cases hv : id = v
  · subst hv
    cases entries.get id with
    | none => simp
    | some entry => cases hk : entry.kind <;> simp [hk, Effect.emission]
  · cases entries.get id with
    | none => simp [hv]
    | some entry => cases hk : entry.kind <;> simp [hk, hv, Effect.emission]

theorem emissionOf_congr {store store' : ValueStore V} {id : NodeId}
    (h : ∀ u ∈ RefCount.linksOf entries id, store'.getById u = store.getById u) :
    emissionOf entries store' id = emissionOf entries store id := by
  unfold emissionOf
  cases hentry : entries.get id with
  | none => rfl
  | some entry =>
    rw [RefCount.linksOf_of_get hentry] at h
    have hreads : store'.reads entry.deps = store.reads entry.deps := List.map_congr_left h
    simp only [hreads]

/-- What has been read and written when the nodes of `done` have been run: what running them one
after the other would have, and what the sinks among them find in the store as it is now. The second
clause speaks of the present store and not of the one the wave read; that they agree at the sinks'
dependencies is part of what is carried. -/
structure Values (entries : FinMap NodeId (NodeEntry V)) (store₀ : ValueStore V)
    (st : WaveState V) (done : List NodeId) : Prop where
  store : st.store = evalAll (singleStore entries) done store₀
  emitted : ∀ id, emissions id st.effects =
    if id ∈ done then emissionOf entries st.store id else []

section

variable (hwired : ∀ v ∈ nodes, RefCount.linksOf entries v = t.depsOf v)
  (hdirty : ∀ v ∈ nodes, v ∈ dirty)

include hwired hdirty

/-- The nodes of a wave are not each other's dependencies, nor those of nodes run before. The first
is why a wave may read one store, the second why writing it disturbs nobody. -/
theorem NextWave.independent (hr : NextWave t dirty nodes done r)
    (hinv : Inv t dirty nodes st done) :
    ∀ v ∈ done ++ r, ∀ u ∈ RefCount.linksOf entries v, u ∉ r := by
  intro v hv u hu hur
  have hud : u ∈ dirty := hdirty u (hr.subset u hur)
  rcases List.mem_append.mp hv with hv | hv
  · rw [hwired v (hinv.subset v hv)] at hu
    exact hr.fresh u hur (hinv.ordered.mem hv hu hud)
  · rw [hwired v (hr.subset v hv)] at hu
    exact hr.fresh u hur (hr.deps v hv u hu hud)

theorem store_wave (hlocal : Dataflow.Local ValueStore.getById (RefCount.linksOf entries)
    (singleStore entries)) (hr : NextWave t dirty nodes done r)
    (hinv : Inv t dirty nodes st done) :
    (wave entries t r st).store = evalAll (singleStore entries) r st.store := by
  have hfst : ((r.map fun id => (id, executeSingle entries st.store id)).map
      fun x => (x.1, x.2.1)).map Prod.fst = r := by simp [Function.comp_def]
  obtain ⟨hout, hin⟩ := store_foldl_writeResult (t := t) (by rw [hfst]; exact hr.nodup)
    { st with
      effects := st.effects ++
        (r.map fun id => (id, executeSingle entries st.store id)).flatMap fun x => x.2.2 }
  rw [hfst] at hout
  refine ValueStore.ext_getById fun v => ?_
  by_cases hv : v ∈ r
  · have hmem : (v, (executeSingle entries st.store v).1) ∈
        (r.map fun id => (id, executeSingle entries st.store id)).map fun x => (x.1, x.2.1) := by
      simpa using hv
    refine (hin v _ hmem).trans ?_
    rw [Dataflow.get_evalAll_of_independent hlocal hr.nodup (fun k hk => hr.independent hwired
      hdirty hinv k (List.mem_append_right _ hk)) st.store hv, getById_singleStore_self]
  · rw [Dataflow.get_evalAll_of_notMem hlocal.frame hv]
    exact hout v hv

theorem Values.wave {store₀ : ValueStore V} (hlocal : Dataflow.Local ValueStore.getById
    (RefCount.linksOf entries) (singleStore entries)) (hr : NextWave t dirty nodes done r)
    (hinv : Inv t dirty nodes st done) (h : Values entries store₀ st done) :
    Values entries store₀ (Scheduler.wave entries t r st) (done ++ r) := by
  have hstore := store_wave hwired hdirty hlocal hr hinv
  have hind := hr.independent hwired hdirty hinv
  have hkeep : ∀ v ∈ done ++ r, emissionOf entries (Scheduler.wave entries t r st).store v =
      emissionOf entries st.store v := fun v hv => emissionOf_congr fun u hu => by
    rw [hstore, Dataflow.get_evalAll_of_notMem hlocal.frame (hind v hv u hu)]
  -- a node emits in a wave if it is in the wave, and then once
  have hwave : ∀ (l : List NodeId), l.Nodup → ∀ v,
      emissions v (l.flatMap fun id => (executeSingle entries st.store id).2) =
        if v ∈ l then emissionOf entries st.store v else [] := by
    intro l
    induction l with
    | nil => exact fun _ _ => rfl
    | cons x l ih =>
      intro hnd v
      obtain ⟨hx, hnd⟩ := List.nodup_cons.mp hnd
      rw [List.flatMap_cons, emissions_append, emissions_executeSingle, ih hnd]
      by_cases hv : x = v
      · subst hv
        simp [hx]
      · simp [hv, Ne.symm hv]
  refine ⟨by rw [hstore, h.store, Dataflow.evalAll_append], fun v => ?_⟩
  rw [effects_wave, emissions_append, h.emitted, hwave r hr.nodup v]
  by_cases hv : v ∈ r
  · rw [if_neg (hr.fresh v hv), if_pos hv, if_pos (List.mem_append_right _ hv), List.nil_append,
      hkeep v (List.mem_append_right _ hv)]
  · rw [if_neg hv, List.append_nil]
    by_cases hvd : v ∈ done
    · rw [if_pos hvd, if_pos (List.mem_append_left _ hvd), hkeep v (List.mem_append_left _ hvd)]
    · rw [if_neg hvd, if_neg (by simp [hv, hvd])]

/-- **The waves compute what a sequence computes**: the store is that of running the same nodes one
after the other, and every sink among them has emitted once, with the values its dependencies end
with.

The sequence is the list of the run, which is in dependency order, and any other list in dependency
order gives the same by the library. The hypothesis is that a node's result depends on its
dependencies' values only. -/
theorem values_executeParallel (hle : t.AtMost) (hlocal : Dataflow.Local ValueStore.getById
    (RefCount.linksOf entries) (singleStore entries)) (store : ValueStore V)
    (walks : ℕ → IterOrder) :
    ∃ done, Ran t dirty nodes done ∧
      (executeParallel walks entries store t nodes dirty).1 =
        evalAll (singleStore entries) done store ∧
      ∀ v, emissions v (executeParallel walks entries store t nodes dirty).2 =
        if v ∈ done then emissionOf entries (evalAll (singleStore entries) done store) v
        else [] := by
  have hstart : Values entries store ⟨store, readyCounts t nodes dirty, nodes.toFinset, []⟩ [] :=
    ⟨rfl, fun _ => rfl⟩
  obtain ⟨st, done, heq, hran, hQ⟩ := executeParallel_induction (Q := Values entries store) hle
    hdirty hstart (fun st done r hinv hr h => h.wave hwired hdirty hlocal hr hinv) walks
  refine ⟨done, hran, by rw [heq, hQ.store], fun v => ?_⟩
  rw [heq, ← hQ.store]
  exact hQ.emitted v

end

end Scheduler

end ReactiveGraph
