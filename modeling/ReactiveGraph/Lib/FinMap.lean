import Mathlib.Algebra.BigOperators.Group.Finset.Basic
import Mathlib.Data.Finmap
import Mathlib.Data.Finset.Card

/-!
# Finite maps with one value type

A hash map, as far as a program can tell through `get`, `insert` and `remove`, is a finite map:
Mathlib's `Finmap` with a constant family. This file fixes that spelling and states the lookup laws
in the one form the rest of the development rewrites with — an `if` on the key — so that no later
proof has to split on `k = k'` before it can rewrite.

What a hash map has besides is an order in which it is walked, which is arbitrary and may differ
from one walk to the next. It is no part of the map: a function of the source that walks one takes
the walk as an argument in the model, and what is proved holds for every walk.

Beyond lookup there is what two kinds of proof need. `map` changes every value at its key, for an
argument about an engine whose nodes are altered and whose registry is otherwise the same. `total`
adds up what the entries come to, for an account that is kept over a whole table while single
entries are written (`total_insert`).
-/

/-- A finite map from `κ` to `ν`. -/
def FinMap (κ ν : Type*) := Finmap fun _ : κ => ν

namespace FinMap

variable {κ ν : Type*}

instance : EmptyCollection (FinMap κ ν) := ⟨(∅ : Finmap fun _ : κ => ν)⟩

/-- The keys that have a value. -/
def keys (m : FinMap κ ν) : Finset κ := Finmap.keys m

@[simp] theorem keys_empty : (∅ : FinMap κ ν).keys = ∅ := Finmap.keys_empty

variable [DecidableEq κ]

/-- The value at a key, if there is one. -/
def get (m : FinMap κ ν) (k : κ) : Option ν := Finmap.lookup k m

/-- The map with `v` at `k`, whatever was there. -/
def insert (m : FinMap κ ν) (k : κ) (v : ν) : FinMap κ ν := Finmap.insert k v m

/-- The map with nothing at `k`. -/
def remove (m : FinMap κ ν) (k : κ) : FinMap κ ν := Finmap.erase k m

/-! ## Lookup -/

@[simp] theorem get_empty (k : κ) : (∅ : FinMap κ ν).get k = none := Finmap.lookup_empty k

@[simp] theorem get_insert_self (m : FinMap κ ν) (k : κ) (v : ν) :
    (m.insert k v).get k = some v := Finmap.lookup_insert m

theorem get_insert_of_ne (m : FinMap κ ν) {k k' : κ} (v : ν) (h : k' ≠ k) :
    (m.insert k v).get k' = m.get k' := Finmap.lookup_insert_of_ne m h

theorem get_insert (m : FinMap κ ν) (k k' : κ) (v : ν) :
    (m.insert k v).get k' = if k' = k then some v else m.get k' := by
  by_cases h : k' = k
  · subst h; simp
  · rw [if_neg h, get_insert_of_ne m v h]

@[simp] theorem get_remove_self (m : FinMap κ ν) (k : κ) : (m.remove k).get k = none :=
  Finmap.lookup_erase k m

theorem get_remove_of_ne (m : FinMap κ ν) {k k' : κ} (h : k' ≠ k) :
    (m.remove k).get k' = m.get k' := Finmap.lookup_erase_ne h

theorem get_remove (m : FinMap κ ν) (k k' : κ) :
    (m.remove k).get k' = if k' = k then none else m.get k' := by
  by_cases h : k' = k
  · subst h; simp
  · rw [if_neg h, get_remove_of_ne m h]

/-- What is found after an insertion is the new value, or was there under another key. -/
theorem get_insert_eq_some {m : FinMap κ ν} {k k' : κ} {v v' : ν} :
    (m.insert k v).get k' = some v' ↔ k' = k ∧ v = v' ∨ k' ≠ k ∧ m.get k' = some v' := by
  rw [get_insert]
  by_cases h : k' = k
  · simp [h]
  · simp [h]

theorem get_remove_eq_some {m : FinMap κ ν} {k k' : κ} {v : ν} :
    (m.remove k).get k' = some v ↔ k' ≠ k ∧ m.get k' = some v := by
  rw [get_remove]
  by_cases h : k' = k
  · simp [h]
  · simp [h]

/-- Two maps that answer every lookup alike are the same map. -/
theorem ext {m m' : FinMap κ ν} (h : ∀ k, m.get k = m'.get k) : m = m' :=
  Finmap.ext_lookup h

/-! ## Keys -/

theorem mem_keys {m : FinMap κ ν} {k : κ} : k ∈ m.keys ↔ (m.get k).isSome :=
  Finmap.mem_keys.trans Finmap.lookup_isSome.symm

theorem mem_keys_of_get {m : FinMap κ ν} {k : κ} {v : ν} (h : m.get k = some v) :
    k ∈ m.keys := mem_keys.mpr (by rw [h]; rfl)

theorem exists_get_of_mem_keys {m : FinMap κ ν} {k : κ} (h : k ∈ m.keys) :
    ∃ v, m.get k = some v := Option.isSome_iff_exists.mp (mem_keys.mp h)

theorem notMem_keys {m : FinMap κ ν} {k : κ} : k ∉ m.keys ↔ m.get k = none := by
  rw [mem_keys, Option.not_isSome_iff_eq_none]

theorem keys_insert (m : FinMap κ ν) (k : κ) (v : ν) :
    (m.insert k v).keys = Insert.insert k m.keys := by
  ext k'
  rw [mem_keys, get_insert, Finset.mem_insert, mem_keys]
  by_cases h : k' = k <;> simp [h]

theorem keys_remove (m : FinMap κ ν) (k : κ) : (m.remove k).keys = m.keys.erase k :=
  Finmap.keys_erase k m

/-- Overwriting a key that is there adds no key. -/
theorem keys_insert_of_mem {m : FinMap κ ν} {k : κ} (v : ν) (h : k ∈ m.keys) :
    (m.insert k v).keys = m.keys := by
  rw [keys_insert, Finset.insert_eq_of_mem h]

theorem card_keys_remove_lt {m : FinMap κ ν} {k : κ} (h : k ∈ m.keys) :
    (m.remove k).keys.card < m.keys.card := by
  rw [keys_remove]
  exact Finset.card_erase_lt_of_mem h

/-! ## Changing every value -/

section Map

variable {ν' : Type*}

/-- The map with `f` applied to what is at each key. The keys stay, so a walk of the one is a walk
of the other. -/
def map (f : κ → ν → ν') (m : FinMap κ ν) : FinMap κ ν' :=
  Finmap.keysLookupEquiv.symm ⟨(m.keys, fun k => (m.get k).map (f k)), fun k => by
    rw [Option.isSome_map, mem_keys]⟩

@[simp] theorem get_map (f : κ → ν → ν') (m : FinMap κ ν) (k : κ) :
    (m.map f).get k = (m.get k).map (f k) := Finmap.keysLookupEquiv_symm_apply_lookup _ k

end Map

/-! ## Sums -/

section Sums

variable {M : Type*} [AddCommMonoid M]

/-- What the entries of a map come to, each taken for what `f` says. The sum is over the keys, so
that writing at a key changes one summand. -/
def total (m : FinMap κ ν) (f : κ → ν → M) : M := ∑ k ∈ m.keys, (m.get k).elim 0 (f k)

@[simp] theorem total_empty (f : κ → ν → M) : (∅ : FinMap κ ν).total f = 0 := by
  simp [total]

/-- A key that is written to counts for what is written, and no longer for what was there. With what
was there on the left, the equation needs no subtraction and holds in any monoid. -/
theorem total_insert (m : FinMap κ ν) (f : κ → ν → M) (k : κ) (v : ν) :
    (m.insert k v).total f + (m.get k).elim 0 (f k) = m.total f + f k v := by
  have hrest : ∑ k' ∈ m.keys.erase k, ((m.insert k v).get k').elim 0 (f k') =
      ∑ k' ∈ m.keys.erase k, (m.get k').elim 0 (f k') :=
    Finset.sum_congr rfl fun k' hk' => by rw [get_insert_of_ne m v (Finset.ne_of_mem_erase hk')]
  have hnew : (m.insert k v).total f =
      f k v + ∑ k' ∈ m.keys.erase k, (m.get k').elim 0 (f k') := by
    rw [total, keys_insert, ← Finset.insert_erase (Finset.mem_insert_self k m.keys),
      Finset.erase_insert_eq_erase, Finset.sum_insert (Finset.notMem_erase k m.keys),
      get_insert_self, Option.elim_some, hrest]
  rw [hnew, total]
  by_cases hk : k ∈ m.keys
  · rw [← Finset.add_sum_erase _ _ hk, add_comm (f k v), add_right_comm, add_comm _ (∑ _ ∈ _, _)]
  · rw [Finset.erase_eq_of_notMem hk, notMem_keys.mp hk, Option.elim_none, add_zero, add_comm]

/-- What is in a sum of multisets is in the part of some entry. -/
theorem mem_total {α : Type*} {m : FinMap κ ν} {f : κ → ν → Multiset α} {a : α}
    (h : a ∈ m.total f) : ∃ k v, m.get k = some v ∧ a ∈ f k v := by
  obtain ⟨k, hk, ha⟩ := Multiset.mem_sum.mp h
  obtain ⟨v, hv⟩ := exists_get_of_mem_keys hk
  rw [hv] at ha
  exact ⟨k, v, hv, ha⟩

end Sums

end FinMap
