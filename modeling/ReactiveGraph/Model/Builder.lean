import ReactiveGraph.Model.Graph

/-!
# The nodes that the builders make

There are builders that take closures and builders that take implementations of the node traits;
what they box differs in where the function comes from and in nothing else, so there is one
definition here for each kind of node.

A function takes one argument for each dependency, and the builders' types see to it that there are
as many of one as of the other. A node extracts the arguments from the store, each downcast to the
type its function takes there, and calls the function if it got them all. The types of the
dependencies' `NodeRef`s are the argument types; that the values in the store have them is another
matter, since an id does not say what its node computes.

**Arguments are a list.** The source writes the extraction out for tuples up to a fixed length, by a
macro, each position downcast at its own type. The model takes the list of types as an argument and
a function on lists of boxed values, so a tuple of any length is covered, and the length of the list
is a hypothesis where it matters (`pure_closureComputeNode`).

**Two readings of one thing.** `extract` reads from the store, as a node does; `argsOf` reads from
what an effect recorded, as an observer does. `extract_eq_argsOf` says that they agree, and it is
what turns a statement about recorded reads into one about the arguments a callback got.

The last theorem of the file is the reason for most of the others: a compute node made by a builder
looks at its dependencies only and gives nothing when one is missing, so the purity that the
theorems about cycles assume holds of every node a program can build without writing the trait
itself.
-/

namespace ReactiveGraph

variable {V : Type*}

/-- What a node of another kind never does, it does purely. Sources, sinks and async nodes have a
`compute` that gives nothing, so a theorem that asks purity of every node asks nothing of these. -/
theorem pure_of_compute_none {impl : AnyNodeImpl V} {deps : List NodeId}
    (h : ∀ store, impl.compute deps store = none) : impl.Pure deps :=
  ⟨fun store store' _ => by rw [h, h], fun store _ => h store⟩

variable [AnyValue V]

/-- The arguments of a function that takes the listed types: one lookup and one downcast for each.
There is no partial result; one missing or ill-typed value and the function is not called. -/
def extract : List TypeId → List NodeId → ValueStore V → Option (List V)
  | [], _, _ => some []
  -- `deps[i]` would be out of bounds; no builder makes such a node
  | _ :: _, [], _ => none
  | type :: types, dep :: deps, store =>
    match (store.getById dep).bind (AnyValue.downcastRef type), extract types deps store with
    | some a, some args => some (a :: args)
    | _, _ => none

/-- The arguments among what a node has found at its dependencies. A sink is not asked for anything:
`extract_and_emit` calls its function with these if it has them, and else returns. -/
def argsOf : List TypeId → List (Option V) → Option (List V)
  | [], _ => some []
  | _ :: _, [] => none
  | type :: types, read :: reads =>
    match read.bind (AnyValue.downcastRef type), argsOf types reads with
    | some a, some args => some (a :: args)
    | _, _ => none

/-- A source; `callback` is what its activation callback sends before it returns, if it has one. The
callback is called once at most, since a node is activated once at most while it is registered. -/
def closureSource (callback : Option (List V)) : AnyNodeImpl V where
  activate _ := callback
  compute _ _ := none
  computeAsync _ _ := none
  asyncPolicy := default
  concurrencyGroupId := none

/-- A compute node: `f` on the arguments, when it got them all. There is no other way in which such
a node gives no value, so it fails exactly when an argument is missing. -/
def closureComputeNode (types : List TypeId) (f : List V → V) : AnyNodeImpl V where
  activate _ := none
  compute deps store := (extract types deps store).map f
  computeAsync _ _ := none
  asyncPolicy := default
  concurrencyGroupId := none

/-- An async node: the arguments are read when the node is triggered, and the future is made of
them. What the store holds when the future runs plays no part. -/
def closureAsyncComputeNode (types : List TypeId) (f : List V → V) (policy : AsyncPolicy)
    (groupId : Option ℕ) : AnyNodeImpl V where
  activate _ := none
  compute _ _ := none
  computeAsync deps store := (extract types deps store).map f
  asyncPolicy := policy
  concurrencyGroupId := groupId

/-- A sink only emits. Its function is outside the model; what it would be called with is `argsOf`
of the effect. -/
def closureSinkNode : AnyNodeImpl V where
  activate _ := none
  compute _ _ := none
  computeAsync _ _ := none
  asyncPolicy := default
  concurrencyGroupId := none

/-! ## What is extracted -/

theorem argsOf_cons (type : TypeId) (types : List TypeId) (read : Option V)
    (reads : List (Option V)) : argsOf (type :: types) (read :: reads) =
      (read.bind (AnyValue.downcastRef type)).bind fun a => (argsOf types reads).map (a :: ·) := by
  rw [argsOf]
  cases read.bind (AnyValue.downcastRef type) <;> cases argsOf types reads <;> rfl

/-- Extracting from the store is reading the dependencies and then taking the arguments out of what
was read. By induction on the types, the dependencies in step. -/
theorem extract_eq_argsOf (types : List TypeId) (deps : List NodeId) (store : ValueStore V) :
    extract types deps store = argsOf types (store.reads deps) := by
  induction types generalizing deps with
  | nil => rfl
  | cons type types ih =>
    cases deps with
    | nil => rfl
    | cons dep deps =>
      rw [extract, ih deps]
      rfl

/-- Extraction looks at nothing but the dependencies' values. -/
theorem extract_congr {deps : List NodeId} {store store' : ValueStore V}
    (h : ∀ d ∈ deps, store.getById d = store'.getById d) (types : List TypeId) :
    extract types deps store = extract types deps store' := by
  induction types generalizing deps with
  | nil => rfl
  | cons type types ih =>
    cases deps with
    | nil => rfl
    | cons dep deps =>
      rw [extract, extract, h dep List.mem_cons_self, ih fun d hd => h d (List.mem_cons_of_mem _ hd)]

/-- One dependency without a value and there are no arguments. The lengths agree, so the position of
the missing one is a position of the function too; with fewer types than dependencies it might never
be asked for. -/
theorem extract_of_missing {types : List TypeId} {deps : List NodeId} {store : ValueStore V}
    (hlen : deps.length = types.length) (h : ∃ d ∈ deps, store.getById d = none) :
    extract types deps store = none := by
  induction types generalizing deps with
  | nil =>
    rw [List.length_eq_zero_iff.mp hlen] at h
    obtain ⟨d, hd, -⟩ := h
    exact absurd hd List.not_mem_nil
  | cons type types ih =>
    cases deps with
    | nil => exact absurd hlen (by simp)
    | cons dep deps =>
      obtain ⟨d, hd, hnone⟩ := h
      rw [extract]
      -- the missing one is the first or among the rest
      rcases List.mem_cons.mp hd with rfl | hd
      · rw [hnone]
        rfl
      · rw [ih (by simpa using hlen) ⟨d, hd, hnone⟩]
        split
        · next h => exact absurd h (by simp)
        · rfl

/-- Where every dependency has a value of the type that is read there, there are arguments. -/
theorem exists_extract {deps : List NodeId} {store : ValueStore V} {type : NodeId → TypeId}
    (h : ∀ d ∈ deps, ∃ value, store.getById d = some value ∧ AnyValue.typeId value = type d) :
    ∃ args, extract (deps.map type) deps store = some args := by
  induction deps with
  | nil => exact ⟨[], rfl⟩
  | cons dep deps ih =>
    obtain ⟨value, hvalue, htype⟩ := h dep List.mem_cons_self
    obtain ⟨args, hargs⟩ := ih fun d hd => h d (List.mem_cons_of_mem _ hd)
    refine ⟨value :: args, ?_⟩
    rw [List.map_cons, extract, hvalue, hargs]
    simp only [Option.bind_some, AnyValue.downcastRef, htype, if_true]

/-- **A compute node that a builder makes is pure.** The hypothesis on the lengths is what the
builders' types guarantee: a node's function takes one argument for each dependency. -/
theorem pure_closureComputeNode {types : List TypeId} {deps : List NodeId}
    (hlen : deps.length = types.length) (f : List V → V) : (closureComputeNode types f).Pure deps where
  congr store store' h := congrArg (Option.map f) (extract_congr h types)
  missing store h := by
    show (extract types deps store).map f = none
    rw [extract_of_missing hlen h]
    rfl

end ReactiveGraph
