import ReactiveGraph.Lib.FinMap
import ReactiveGraph.Model.NodeRef

/-!
# The value store

`HashMap<NodeId, Box<dyn Any + Send + Sync>>`: each node has at most one value. A boxed value is an
element of `V`; `AnyValue V` is what `Any` adds to it, the type a box was made with, by which
`downcast_ref` succeeds or fails.

**Two ways to read.** `getById` hands out the box and never fails on a node that has a value; that
is how the cycle and the schedulers move values around. `get` goes through a typed reference and
gives nothing when the box has another type, which is how a node reads its arguments and how
`Engine::read` answers. The engine never looks inside a box in any other way, so everything that
concerns values alone is stated for an arbitrary `V`, and only results about what nodes read or what
a caller gets ask for `AnyValue V`.

`set` is not modelled apart: it is `set_by_id` at the reference's id, and the engine calls only the
latter.

The lemmas are one for each pair of an operation and a lookup, so that no later proof opens the map.
A store is determined by its lookups (`ext_getById`), which is what lets two executions be compared
node by node and then be called equal.
-/

namespace ReactiveGraph

/-- Values that remember the type they were boxed at. A class and not a structure field of the
store, since the type belongs to the box: whoever sends a value has fixed it. -/
class AnyValue (V : Type*) where
  typeId : V → TypeId

/-- `downcast_ref::<T>()`: the value itself when it was boxed at `T`, else nothing. The model
returns the boxed value again, since a Lean function can be asked to look at it in the same way. -/
def AnyValue.downcastRef {V : Type*} [AnyValue V] (type : TypeId) (value : V) : Option V :=
  if AnyValue.typeId value = type then some value else none

/-- Typed centralised storage for node values. That only registered nodes have one is an invariant
of the engine and is not asked here. -/
structure ValueStore (V : Type*) where
  values : FinMap NodeId V

namespace ValueStore

variable {V : Type*}

def new : ValueStore V := ⟨∅⟩

def setById (store : ValueStore V) (id : NodeId) (value : V) : ValueStore V :=
  ⟨store.values.insert id value⟩

def getById (store : ValueStore V) (id : NodeId) : Option V := store.values.get id

/-- `get(&node_ref)`: the value, if it has the reference's type. -/
def get [AnyValue V] (store : ValueStore V) (nodeRef : NodeRef) : Option V :=
  (store.getById nodeRef.id).bind (AnyValue.downcastRef nodeRef.type)

def remove (store : ValueStore V) (id : NodeId) : ValueStore V := ⟨store.values.remove id⟩

def contains (store : ValueStore V) (id : NodeId) : Bool := (store.values.get id).isSome

/-- What a node finds at its dependencies, in their order and with their repetitions. An effect of
the engine records this list, so that what a callback was called with can be said afterwards. -/
def reads (store : ValueStore V) (deps : List NodeId) : List (Option V) := deps.map store.getById

@[simp] theorem getById_new (id : NodeId) : (new : ValueStore V).getById id = none :=
  FinMap.get_empty id

@[simp] theorem getById_setById_self (store : ValueStore V) (id : NodeId) (value : V) :
    (store.setById id value).getById id = some value := FinMap.get_insert_self _ _ _

theorem getById_setById (store : ValueStore V) (id id' : NodeId) (value : V) :
    (store.setById id value).getById id' = if id' = id then some value else store.getById id' :=
  FinMap.get_insert _ _ _ _

theorem getById_setById_of_ne (store : ValueStore V) {id id' : NodeId} (value : V)
    (h : id' ≠ id) : (store.setById id value).getById id' = store.getById id' :=
  FinMap.get_insert_of_ne _ _ h

@[simp] theorem getById_remove_self (store : ValueStore V) (id : NodeId) :
    (store.remove id).getById id = none := FinMap.get_remove_self _ _

theorem getById_remove (store : ValueStore V) (id id' : NodeId) :
    (store.remove id).getById id' = if id' = id then none else store.getById id' :=
  FinMap.get_remove _ _ _

theorem getById_remove_of_ne (store : ValueStore V) {id id' : NodeId} (h : id' ≠ id) :
    (store.remove id).getById id' = store.getById id' := FinMap.get_remove_of_ne _ h

theorem getById_setById_eq_some {store : ValueStore V} {id id' : NodeId} {value value' : V} :
    (store.setById id value).getById id' = some value' ↔
      id' = id ∧ value = value' ∨ id' ≠ id ∧ store.getById id' = some value' :=
  FinMap.get_insert_eq_some

theorem getById_remove_eq_some {store : ValueStore V} {id id' : NodeId} {value : V} :
    (store.remove id).getById id' = some value ↔ id' ≠ id ∧ store.getById id' = some value :=
  FinMap.get_remove_eq_some

theorem contains_iff {store : ValueStore V} {id : NodeId} :
    store.contains id ↔ ∃ v, store.getById id = some v := Option.isSome_iff_exists

/-- Two stores that answer every lookup alike are the same store. Equality of stores is always
proved this way, node by node. -/
theorem ext_getById {store store' : ValueStore V}
    (h : ∀ id, store.getById id = store'.getById id) : store = store' := by
  obtain ⟨m⟩ := store
  obtain ⟨m'⟩ := store'
  exact congrArg _ (FinMap.ext h)

end ValueStore

end ReactiveGraph
