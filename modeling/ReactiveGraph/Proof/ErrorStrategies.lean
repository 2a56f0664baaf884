import ReactiveGraph.Proof.Failure
import ReactiveGraph.Proof.TypedRefs

/-!
# What the error strategies come to

Two properties of nodes that fail, both with a condition on the engine before the cycle.

**Strategies are honoured** when a failing node ends with what its strategy promises: nothing under
`propagateError`, the value of the cycle before under the others. The sequential executor follows
the strategies. The scheduler has none and leaves every failing node with what it has, so a node
that may fail must have what is promised to begin with (`KeepsPromises`).

**No node is run for a stale value** when what is evaluated reads something that has changed. Which
nodes are executed is settled before any of them is, all that are dirty: a node that fails under
`propagateStale` keeps its value, and what is downstream of it is executed all the same. So each
dirty node must read an updated node or one that is sure to pass something on (`HasNews`).

Whether a node fails is for the cycle to find out, so both conditions speak of the nodes that *may*
fail (`Engine.MayFail`), and neither theorem is an equivalence for one engine: where a node that may
fail happens not to, the property can hold without its condition. What stands for the other
direction is that the conditions ask for nothing that could be left out. Where one is not met, the
property is false of the engine in which some of the nodes that may fail do, and which is otherwise
the same.

**The promise is made of the value before the cycle**, not of the one received in it. An update
addressed to a compute node, which a program can send through a reference of the wrong kind, is a
value that neither strategy promised.

Sources, sinks and async nodes do not fail here: a sink whose arguments are missing returns without
a word, and an async node that gives no future starts nothing. They are spoken of where it matters
what they are run for. Backoff is real time and left out.
-/

namespace ReactiveGraph

namespace Engine

variable {V : Type*} {e : Engine V}

/-! ## Error strategies in both executors -/

/-- What a strategy promises of a node that fails: no value under `propagateError`, and the value it
had before the cycle under the others, `retry` among them. -/
def promised (e : Engine V) (v : NodeId) : Option V :=
  if e.strategyOf v = .propagateError then none else e.graph.valueStore.getById v

/-- Where leaving failing nodes alone keeps the promises, the strategies leave them with the same.
So the two executors settle on one store. -/
theorem Settles.strategyLeaves {s : ValueStore V} (hs : e.Settles (fun _ own => own) s)
    (hkept : ∀ v, e.Dirty v → e.Fails s v →
      e.received.graph.valueStore.getById v = e.promised v) : e.Settles e.strategyLeaves s where
  kept := hs.kept
  evaluated v hv := by
    by_cases hfails : e.Fails s v
    · rw [hs.getById_of_fails hv hfails, nodeValue_of_fails hfails, Engine.strategyLeaves]
      split
      · next herror => rw [hkept v hv hfails, promised, if_pos herror]
      · rfl
    · rw [hs.evaluated v hv]
      exact nodeValue_of_not_fails hfails _ _ _

/-- The node was run between `e` and `e'`: it was computed, it emitted or it was triggered. -/
def Ran (e e' : Engine V) (v : NodeId) : Prop := e.evaluations v < e'.evaluations v

theorem HasKind.hasCallback {v : NodeId} (h : HasKind e.graph v .asyncCompute) :
    e.HasCallback v := by
  obtain ⟨entry, hentry, hkind⟩ := h
  exact ⟨entry, hentry, by simp [hkind]⟩

theorem HasCallback.cases {v : NodeId} (h : e.HasCallback v) :
    e.IsComputeOrSink v ∨ HasKind e.graph v .asyncCompute := by
  obtain ⟨entry, hentry, hne⟩ := h
  cases hk : entry.kind with
  | source => exact absurd hk hne
  | compute => exact Or.inl ⟨entry, hentry, Or.inl hk⟩
  | sink => exact Or.inl ⟨entry, hentry, Or.inr hk⟩
  | asyncCompute => exact Or.inr ⟨entry, hentry, hk⟩

end Engine

end ReactiveGraph
