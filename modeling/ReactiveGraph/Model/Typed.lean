import ReactiveGraph.Model.Builder
import ReactiveGraph.Model.Session

/-!
# Builder calls and the references they return

A builder makes a node and returns a reference that carries the node's output type. The node's id
carries another type, the scope of its key: a trait-based builder scopes the key by the type the
trait is implemented for, which determines the output type, and a closure-based builder by a marker
type of its own, the same for every output type. Registration does not look at the implementation
when the id is there already, so what a reference promises depends on which builder call came first.

What a program passes to a builder has the right types, or it would not compile: functions, values
and trait implementations come with proofs here.

**What the compiler checks and what nobody checks.** A `Build` holds the first: the function of a
compute node gives its output type (`Into`), the callback of a source sends it (`Boxes`), and an
argument has the type of the reference it came from (`nodeImpl` reads the types off the references).
The second is whether the store holds that type under that id, and no part of a `Build` says so. It
is for `Proof/TypedRefs.lean` to find the condition on the calls of a run under which it does.

A builder call is possible on a graph, on a builder of a subgraph that is merged, and on one that is
not; the reference that it returns is the same in the three cases, and the last is why `sketch` is a
step. The two async calls are there on a subgraph too, where the source has none (`Subgraph.lean`).
-/

namespace ReactiveGraph

/-- A type that node traits are implemented for. The crate's marker types, which have the first
`TypeId`s here, are private to it, so a program's own type is none of them. -/
structure NodeType where
  typeId : TypeId
  foreign : 4 ≤ typeId
  deriving DecidableEq

/-- What a key is scoped by. One marker serves all closure-based builders of a kind, whatever they
output. -/
inductive Scope where
  | closureSource
  | closureCompute
  | closureAsyncCompute
  | closureSink
  | node (type : NodeType)
  deriving DecidableEq

/-- `TypeId::of::<Scope>()`. -/
def Scope.typeId : Scope → TypeId
  | .closureSource => 0
  | .closureCompute => 1
  | .closureAsyncCompute => 2
  | .closureSink => 3
  | .node type => type.typeId

/-- The type `()`. -/
def unitType : TypeId := 4

/-- Values of a type, boxed: what a callback of type `T` may send, since its `Sender` is a
`Sender<T>`. -/
def Boxes (V : Type*) [AnyValue V] (type : TypeId) :=
  { values : List V // ∀ value ∈ values, AnyValue.typeId value = type }

/-- Functions into a type. That the arguments have theirs is not asked of the function: it is called
only with what was downcast. -/
def Into (V : Type*) [AnyValue V] (type : TypeId) :=
  { f : List V → V // ∀ args, AnyValue.typeId (f args) = type }

/-- A builder call, on a graph or on a `SubgraphBuilder`. `output` is the associated type of the
node traits; what a callback sends and what functions and futures give is as in `Model/Builder`. -/
inductive Build (output : NodeType → TypeId) (K V : Type*) [AnyValue V] where
  | closureSource (key : K) (type : TypeId) (callback : Option (Boxes V type))
  | closureCompute (key : K) (type : TypeId) (deps : List NodeRef) (f : Into V type)
  | closureAsyncCompute (key : K) (type : TypeId) (deps : List NodeRef) (f : Into V type)
      (policy : AsyncPolicy) (groupId : Option ℕ)
  | closureSink (key : K) (deps : List NodeRef)
  | source (type : NodeType) (key : K) (callback : Boxes V (output type))
  | compute (type : NodeType) (key : K) (deps : List NodeRef) (f : Into V (output type))
  | asyncCompute (type : NodeType) (key : K) (deps : List NodeRef) (f : Into V (output type))
      (policy : AsyncPolicy) (groupId : Option ℕ)
  | sink (type : NodeType) (key : K) (deps : List NodeRef)

namespace Build

variable {output : NodeType → TypeId} {K V : Type*} [AnyValue V]

def key : Build output K V → K
  | .closureSource key .. | .closureCompute key .. | .closureAsyncCompute key ..
  | .closureSink key .. | .source _ key .. | .compute _ key .. | .asyncCompute _ key ..
  | .sink _ key .. => key

def scope : Build output K V → Scope
  | .closureSource .. => .closureSource
  | .closureCompute .. => .closureCompute
  | .closureAsyncCompute .. => .closureAsyncCompute
  | .closureSink .. => .closureSink
  | .source type .. | .compute type .. | .asyncCompute type .. | .sink type .. => .node type

/-- The type of the reference that is returned. -/
def type : Build output K V → TypeId
  | .closureSource _ type .. | .closureCompute _ type .. | .closureAsyncCompute _ type .. => type
  | .source type .. | .compute type .. | .asyncCompute type .. => output type
  | .closureSink .. | .sink .. => unitType

def kind : Build output K V → NodeKind
  | .closureSource .. | .source .. => .source
  | .closureCompute .. | .compute .. => .compute
  | .closureAsyncCompute .. | .asyncCompute .. => .asyncCompute
  | .closureSink .. | .sink .. => .sink

def deps : Build output K V → List NodeRef
  | .closureSource .. | .source .. => []
  | .closureCompute _ _ deps .. | .closureAsyncCompute _ _ deps .. | .closureSink _ deps
  | .compute _ _ deps .. | .asyncCompute _ _ deps .. | .sink _ _ deps => deps

/-- What is boxed. The argument types are those of the references, which is where the compiler takes
them from. -/
def nodeImpl : Build output K V → AnyNodeImpl V
  | .closureSource _ _ callback => ReactiveGraph.closureSource (callback.map Subtype.val)
  | .source _ _ callback => ReactiveGraph.closureSource (some callback.val)
  | .closureCompute _ _ deps f | .compute _ _ deps f =>
    closureComputeNode (deps.map NodeRef.type) f.val
  | .closureAsyncCompute _ _ deps f policy groupId | .asyncCompute _ _ deps f policy groupId =>
    closureAsyncComputeNode (deps.map NodeRef.type) f.val policy groupId
  | .closureSink .. | .sink .. => closureSinkNode

/-- The reference that is returned. Its id forgets the output type, unless the scope determines
it. -/
def nodeRef (hash : K → UInt64) (b : Build output K V) : NodeRef :=
  ⟨NodeId.fromKey hash b.scope.typeId b.key, b.type⟩

/-- What is registered: the references' types are gone from it. -/
def descriptor (hash : K → UInt64) (b : Build output K V) : NodeDescriptor V :=
  ⟨(b.nodeRef hash).id, b.kind, b.deps.map NodeRef.id, b.nodeImpl⟩

end Build

/-- A session, and the builder calls made in it, the unmerged ones among them. -/
structure TypedSession (output : NodeType → TypeId) (K V : Type*) [AnyValue V] where
  session : Session V
  built : List (Build output K V)

/-- A step of a typed program. Values are sent through references here, so that their types can be
spoken of; anything else is a call as before. -/
inductive TypedCall (output : NodeType → TypeId) (K V : Type*) [AnyValue V] where
  /-- A builder is called on a `SubgraphBuilder` that is not merged, or not yet. -/
  | sketch (b : Build output K V)
  /-- A builder is called on the graph. -/
  | build (b : Build output K V)
  /-- A subgraph is built by the listed calls and merged. -/
  | merge (bs : List (Build output K V))
  /-- `Sender::send`, of a `Sender` for the node. -/
  | send (nodeRef : NodeRef) (value : V)
  /-- The loop takes what `EngineHandle::update_source` has sent. -/
  | update (nodeRef : NodeRef) (value : V)
  /-- Anything else. -/
  | call (c : Call V)

namespace TypedSession

variable {output : NodeType → TypeId} {K V : Type*} [AnyValue V]

def init : TypedSession output K V := ⟨.init, []⟩

def apply (hash : K → UInt64) (s : TypedSession output K V) :
    TypedCall output K V → TypedSession output K V
  | .sketch b => { s with built := s.built ++ [b] }
  | .build b => ⟨s.session.apply (.register (b.descriptor hash)), s.built ++ [b]⟩
  | .merge bs => ⟨s.session.apply (.merge (bs.map (Build.descriptor hash))), s.built ++ bs⟩
  | .send nodeRef value => { s with session := s.session.apply (.send nodeRef.id value) }
  | .update nodeRef value => { s with session := s.session.apply (.update nodeRef.id value) }
  | .call c => { s with session := s.session.apply c }

/-- Where a run from a new engine ends. -/
def run (hash : K → UInt64) (calls : List (TypedCall output K V)) : TypedSession output K V :=
  Runs.run (apply hash) init calls

end TypedSession

end ReactiveGraph
