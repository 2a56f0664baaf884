import Mathlib.Data.List.Sort
import Mathlib.Data.Finset.Basic
import Mathlib.Data.UInt

/-!
# Node identities and references, and the order in which a hash set is walked

A `NodeId` is compared and hashed by two of its fields, the scope type and the 64-bit hash of the
key; the third, the key's debug text, takes no part in either and is left out. So two keys of one
scope with the same hash are one node, here as in the source. Nothing in the model excludes a
collision: a result that needs distinct nodes says that their ids are distinct, and what the keys
were is not asked.

`TypeId` is a number. All that the engine does with one is to compare it, once in an id and once
when a boxed value is downcast, so any type with decidable equality would do.

## Hash maps and hash sets

The engine keeps its nodes in hash maps and hash sets, and several of its loops walk one. Which
order such a walk takes is nobody's business, and it may differ between two walks of one set, since
every `HashMap` is seeded anew. So the model takes it as data: an `IterOrder` lists any finite set,
each member once. A theorem about a cycle is a theorem about every `IterOrder`, and nothing is
proved by choosing a convenient one; `IterOrder.increasing` is there so that a run on concrete nodes
can be evaluated.

What an `IterOrder` cannot say is that the same members are walked differently when they are met
again. A cycle has three walks and is given an order for each, one for every wave besides. Only the
sort walks two containers with the same members, the dirty set and the map of in-degrees; the first
walk does no more than fill the second, which comes out the same from any walk.
-/

namespace ReactiveGraph

/-- A Rust type, as far as `TypeId` tells types apart. Numbers stand for them, so that ids can be
compared by evaluation. -/
abbrev TypeId := ℕ

/-- Unique identity for a node in the graph: what `Eq` and `Hash` look at. The scope is the node's
own type for a node built from a trait, and a marker type of the builder for one built from
closures. -/
structure NodeId where
  typeId : TypeId
  keyHash : UInt64
  deriving DecidableEq

/-- Create a `NodeId` from a node's key. The type scopes the key; `hash` is the default hasher,
which is a parameter since no result depends on what it computes. -/
def NodeId.fromKey {K : Type*} (hash : K → UInt64) (scope : TypeId) (key : K) : NodeId :=
  ⟨scope, hash key⟩

/-- A typed, lightweight reference to a node. In the source the type is a parameter that only the
compiler sees; here it is a field, and where the compiler checks it, in the builders, the model
reads it. -/
structure NodeRef where
  id : NodeId
  type : TypeId
  deriving DecidableEq

/-- One way of walking hash sets of nodes: each member comes up once and nothing else does. No
relation is asked between the walks of two different sets. -/
structure IterOrder where
  iter : Finset NodeId → List NodeId
  nodup_iter : ∀ s, (iter s).Nodup
  mem_iter : ∀ s v, v ∈ iter s ↔ v ∈ s

attribute [simp] IterOrder.mem_iter

namespace NodeId

/-- The order of the fields, for a walk that can be computed. It is no order of the source, which
has none on ids. -/
def le (a b : NodeId) : Prop :=
  a.typeId < b.typeId ∨ (a.typeId = b.typeId ∧ a.keyHash.toNat ≤ b.keyHash.toNat)

instance : DecidableRel le := fun a b => by
  unfold le
  infer_instance

instance : Std.Total le := ⟨fun a b => by simp only [le, TypeId]; omega⟩

instance : IsTrans NodeId le := ⟨fun a b c hab hbc => by simp only [le, TypeId] at *; omega⟩

theorem le_antisymm {a b : NodeId} (hab : le a b) (hba : le b a) : a = b := by
  obtain ⟨ta, ka⟩ := a
  obtain ⟨tb, kb⟩ := b
  simp only [le, TypeId] at hab hba
  have ht : @Eq ℕ ta tb := by omega
  have hk : ka = kb := UInt64.toNat_inj.mp (by omega)
  rw [ht, hk]

/-- The members of a set in increasing order. The list is taken out of the set's quotient, which is
sound since any two lists of it sort to the same one. -/
def sorted (s : Finset NodeId) : List NodeId :=
  Quot.liftOn s.val (fun l => l.insertionSort le) fun a b h =>
    -- two sorted permutations of one list are equal, so the choice of a representative does not
    -- show
    List.Perm.eq_of_pairwise (fun _ _ _ _ => le_antisymm) (List.pairwise_insertionSort le a)
      (List.pairwise_insertionSort le b)
      (((List.perm_insertionSort le a).trans h).trans (List.perm_insertionSort le b).symm)

theorem perm_sorted (s : Finset NodeId) : (sorted s : Multiset NodeId) = s.val := by
  obtain ⟨m, hm⟩ := s
  induction m using Quot.inductionOn with
  | h l => exact Quot.sound (List.perm_insertionSort le l)

end NodeId

/-- The walk in increasing order, the only concrete one here. Runs on concrete nodes are evaluated
with it; the theorems quantify over all. -/
def IterOrder.increasing : IterOrder where
  iter := NodeId.sorted
  nodup_iter s := Multiset.coe_nodup.mp (by rw [NodeId.perm_sorted]; exact s.nodup)
  mem_iter s v := by rw [← Multiset.mem_coe, NodeId.perm_sorted, Finset.mem_val]

instance : Inhabited IterOrder := ⟨.increasing⟩

end ReactiveGraph
