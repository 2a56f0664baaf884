import ReactiveGraph.Proof.UpToDate

/-!
# What is left when the clients stop

The threads come to rest under every fair schedule (`Quiescence`), and then three things meet. Each
value has arrived, and each way kept its order (`Arrival`). Each future of a node under `queue` has
come out, the last one last (`AsyncOrder`). And the engine is up to date with all that (`UpToDate`).
So nothing of the history is left in it but the last values of the sources: **a source holds what
was sent to it last, a compute node what it computes, an async node what it would compute, and a
sink has last been shown what its dependencies hold.**

**Of nodes that last.** A node that was removed, or removed and merged again, is not spoken of, as
in `UpToDate`.

**Last is meant in each way.** A value sent over the bridge and one sent in a command may overtake
each other, so of two last ones, one in each way, either may be what the source ends with. If values
were sent in one way only, or both ways end with the same, it is determined (`Denotation.lean`).

**Async nodes** are spoken of under `queue` only, and only once they have been triggered. Under the
other policies a computation may be cancelled, or its result come after that of a later one, and
nothing of this kind holds. A started engine has none of these nodes, since they cannot be merged
(`Registered.lean`); the clause is there for every program over `Threads`, as the model has it.

A loop that has been shut down stops with what it has, and nothing is said of it but that it has
stopped.
-/

namespace ReactiveGraph

open Engine

variable {V : Type*} {kind : NodeId → NodeKind}

namespace Engine

/-- What an engine shows when all has come to rest: `bridged` and `direct` are the values that were
sent to sources, over the bridge and in commands. Which of the two last ones came last is a matter
of timing; if a source was sent values in one of the two ways only, there is but the one. The last
two clauses ask that the node was called at all. -/
structure Reflects (kind : NodeId → NodeKind) (lasts : NodeId → Prop)
    (bridged direct : List (NodeId × V)) (e : Engine V) : Prop where
  sources : ∀ v, lasts v → kind v = .source →
    e.graph.valueStore.getById v = (lastSent bridged v).or (lastSent direct v) ∨
      e.graph.valueStore.getById v = (lastSent direct v).or (lastSent bridged v)
  computed : e.Recomputed
  awaited : ∀ v entry future, lasts v → kind v = .asyncCompute →
    e.asyncManager.policyOf v = some .queue → e.graph.entries.get v = some entry →
      lastSent (seen e.effects) v ≠ none →
        entry.nodeImpl.computeAsync entry.deps e.graph.valueStore = some future →
          e.graph.valueStore.getById v = some future
  shown : ∀ v reads, lasts v → kind v = .sink → lastSent (seen e.effects) v = some reads →
    reads = e.graph.valueStore.reads (e.graph.depsOf v)

end Engine

namespace Threads

variable {t : Threads V} {ms : List (Move V)}

/-- What comes out last for a source is what went in last, one way or the other: the list drained is
an interleaving of the two that were sent. -/
theorem Arriving.lastSent {bridged direct sources completed results : List (NodeId × V)}
    (h : t.Arriving bridged direct sources completed results) (hrest : t.AtRest)
    (hrun : t.loop ≠ .stopped) (hrx : t.engine.graph.sourceRx = []) (v : NodeId) :
    ReactiveGraph.lastSent sources v =
        (ReactiveGraph.lastSent bridged v).or (ReactiveGraph.lastSent direct v) ∨
      ReactiveGraph.lastSent sources v =
        (ReactiveGraph.lastSent direct v).or (ReactiveGraph.lastSent bridged v) := by
  obtain ⟨hloop, hcommands⟩ := hrest.loop.resolve_right hrun
  obtain ⟨⟨viaBridge, viaCommand, hinter, hbridged, hdirect⟩, -⟩ := h
  rw [hrest.bridge, hrest.bridgeRx] at hbridged
  rw [hloop, hcommands] at hdirect
  obtain rfl : bridged = viaBridge := by simpa [BridgePc.held] using hbridged
  obtain rfl : direct = viaCommand := by simpa [LoopPc.collected] using hdirect
  rw [hrx, List.append_nil] at hinter
  have hlast := (hinter.filter fun update => update.1 = v).getLast?_eq
  simp only [ReactiveGraph.lastSent, ← Option.map_or]
  exact hlast.imp (congrArg (Option.map Prod.snd)) (congrArg (Option.map Prod.snd))

/-- With nothing under way the results of a node under `queue` are the futures it gave, in their
order. At rest nothing runs, waits for a slot, or is pending. -/
theorem Serving.valuesOf {given drained : List (NodeId × V)} (h : t.Serving given drained)
    (hrest : t.AtRest) (hrun : t.loop ≠ .stopped) (hrx : t.engine.asyncManager.resultRx = [])
    {v : NodeId} (hq : t.engine.asyncManager.policyOf v = some .queue) :
    ReactiveGraph.valuesOf given v = ReactiveGraph.valuesOf drained v := by
  obtain ⟨hloop, -⟩ := hrest.loop.resolve_right hrun
  obtain ⟨⟨hbacked, -⟩, haccount⟩ := h.inOrder v fun p hp =>
    (Option.some.inj (hq.symm.trans hp)).symm
  have hline : t.engine.asyncManager.lineOf v = [] := by
    rw [h.ungrouped.lineOf, AsyncManager.tasksOf, hrest.running]
    rfl
  have howing : t.owing = [] := by
    rw [owing, hloop, hrx]
    rfl
  have hpending : t.engine.asyncManager.pendingOf v = [] := by
    by_contra hne
    rcases hbacked.pending hne with hl | ho
    · exact hl hline
    · rw [howing] at ho
      exact List.not_mem_nil ho
  rw [haccount, lined, AsyncManager.heldOf, hline, hpending, AsyncManager.resultsOf, hrx, hloop]
  exact List.append_nil _

/-- **At rest the engine shows the last values sent and what follows from them.** -/
theorem reflects_of_atRest (h : Runs.AllSteps apply (Orderly kind) init ms)
    (hrest : (run ms).AtRest) (hrun : (run ms).loop ≠ .stopped) :
    (run ms).engine.Reflects kind (Lasts ms) (Runs.trace apply bridges init ms)
      (ms.flatMap Move.directs) := by
  obtain ⟨hawake, hcoh⟩ := coherent_run h
  have hdrained := hawake.allDrained (hrest.quiet hrun)
  obtain ⟨hloop, -⟩ := hrest.loop.resolve_right hrun
  have hcurrent := hcoh.idle (by rw [hloop]; rfl) (by rw [hloop]; rfl)
  refine ⟨fun v hl hk => ?_, hcurrent.recomputed, fun v entry future hl hk hq hentry hcalled
    hfuture => ?_, fun v reads hl hk hlast => (hcurrent.called v reads hl (Or.inl hk) hlast).2⟩
  · rw [hcurrent.sources v hl hk]
    exact (arriving_run ms).2.lastSent hrest hrun hdrained.sourceRx v
  · have hgiven := hcurrent.given v entry future hl hk hentry hcalled hfuture
    rw [hcurrent.results v hl hk, lastSent_eq_getLast?,
      ← (serving_run ms).valuesOf hrest hrun hdrained.resultRx hq, ← lastSent_eq_getLast?, hgiven]

theorem Internal.directs {m : Move V} (h : Internal m) : m.directs = [] := by
  cases m <;> first | rfl | exact h.elim

/-- **When the clients stop, the engine converges.** After any run, let the loop, the bridge and the
tasks go on in any fair order: from some point on nothing changes, and unless the loop has been shut
down, the engine then shows the last values sent and what follows from them.

The schedule is endless and fair, and its moves are those of the three parties; that the run so far
and every beginning of the schedule are orderly follows from promises of the clients
(`orderly_turns`). -/
theorem converges {f : ℕ → Move V} (hf : Fair f)
    (h : ∀ n, Runs.AllSteps apply (Orderly kind) init (ms ++ (List.range n).map f)) :
    ∃ n, (∀ m, n ≤ m → Rest.states Threads.apply (run ms) f m =
        Rest.states Threads.apply (run ms) f n) ∧
      ((Rest.states Threads.apply (run ms) f n).loop = .stopped ∨
        (Rest.states Threads.apply (run ms) f n).engine.Reflects kind
          (Lasts (ms ++ (List.range n).map f))
          (Runs.trace apply bridges init (ms ++ (List.range n).map f))
          (ms.flatMap Move.directs)) := by
  obtain ⟨n, hfixed, -, hrest⟩ := (steady_run ms).rests hf
  refine ⟨n, hfixed, or_iff_not_imp_left.mpr fun hrun => ?_⟩
  have hstate : Rest.states Threads.apply (run ms) f n = run (ms ++ (List.range n).map f) := by
    rw [Rest.states_eq_run, run, run, Runs.run_append]
  rw [hstate] at hrest hrun ⊢
  have hreflects := reflects_of_atRest (h n) hrest hrun
  -- no client moves any more
  have hnone : ((List.range n).map f).flatMap Move.directs = [] := by
    refine List.flatMap_eq_nil_iff.mpr fun m hm => ?_
    obtain ⟨k, -, rfl⟩ := List.mem_map.mp hm
    exact (hf.internal k).directs
  rwa [List.flatMap_append, hnone, List.append_nil] at hreflects

theorem Internal.promised {m : Move V} (h : Internal m) : m.Promised kind := by
  cases m <;> trivial

/-- With clients that need not look, the schedule is always in order. -/
theorem orderly_turns (h : ∀ m ∈ ms, m.Promised kind) {f : ℕ → Move V} (hf : Fair f) (n : ℕ) :
    Runs.AllSteps apply (Orderly kind) init (ms ++ (List.range n).map f) := by
  refine orderly_of_promised fun m hm => ?_
  rcases List.mem_append.mp hm with hm | hm
  · exact h m hm
  · obtain ⟨k, -, rfl⟩ := List.mem_map.mp hm
    exact (hf.internal k).promised

theorem converges_relays :
    ∃ n, (∀ m, n ≤ m → Rest.states Threads.apply (run relays) turns m =
        Rest.states Threads.apply (run relays) turns n) ∧
      ((Rest.states Threads.apply (run relays) turns n).loop = .stopped ∨
        (Rest.states Threads.apply (run relays) turns n).engine.Reflects relayKind
          (Lasts (relays ++ (List.range n).map turns))
          (Runs.trace apply bridges init (relays ++ (List.range n).map turns))
          (relays.flatMap Move.directs)) :=
  converges .turns (orderly_turns promised_relays .turns)

end Threads

end ReactiveGraph
