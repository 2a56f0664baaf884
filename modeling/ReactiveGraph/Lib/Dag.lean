import Mathlib.Logic.Relation
import Mathlib.Order.WellFoundedSet
import Mathlib.Data.List.Count
import Mathlib.Algebra.BigOperators.Group.List.Basic
import Mathlib.Algebra.GroupWithZero.Nat

/-!
# Graphs given by lists of predecessors

A node's dependencies are a *list*: the same predecessor may occur twice, and the programs verified
over this library count occurrences. `pred v` is that list. Four things are needed of such graphs
everywhere below:

- an acyclic relation has a minimal node in every non-empty finite set (`Acyclic.exists_min`), which
  is the induction principle every proof over a dependency graph uses (`Acyclic.induction`);
- a list of nodes is `Ordered` when each node comes after its predecessors inside a given set — what
  a topological sort promises of its output;
- a finite part of the graph can be listed in order exactly if no cycle runs inside it
  (`Acyclic.exists_ordered`, `Ordered.no_cycle`);
- summing the occurrences of each node of a duplicate-free list in `p` counts the elements of `p`
  that lie in the list (`sum_count_eq_countP`), the arithmetic behind every in-degree.

`Ordered` takes the set as a predicate, since a sort looks at part of a graph only and the part is
described differently from one use to the next: the dirty nodes, the nodes sorted so far, the active
ones. A predecessor outside the set asks nothing of the order.

Graphs need not be finite, and `Acyclic` is about the whole relation. Where finiteness is wanted it
is a finite set that the nodes with predecessors lie in, which is how a registry of nodes gives it.
-/

namespace Dag

open Relation

variable {κ : Type*}

/-! ## Acyclic relations -/

/-- No node reaches itself. -/
def Acyclic (r : κ → κ → Prop) : Prop := ∀ v, ¬ TransGen r v v

theorem Acyclic.mono {r s : κ → κ → Prop} (h : Acyclic s) (hrs : ∀ u v, r u v → s u v) :
    Acyclic r := fun v hv => h v (TransGen.mono hrs v v hv)

theorem Acyclic.irrefl {r : κ → κ → Prop} (h : Acyclic r) (v : κ) : ¬ r v v :=
  fun hv => h v (.single hv)

/-- A relation along which some rank grows is acyclic. -/
theorem Acyclic.of_rank {r : κ → κ → Prop} (rank : κ → ℕ) (h : ∀ u v, r u v → rank u < rank v) :
    Acyclic r := by
  have hlt : ∀ {u v}, TransGen r u v → rank u < rank v := by
    intro u v huv
    induction huv with
    | single huv => exact h _ _ huv
    | tail _ hvw ih => exact ih.trans (h _ _ hvw)
  exact fun v hv => lt_irrefl _ (hlt hv)

/-- A node that has just been added, and that nothing reads, closes no cycle. -/
theorem Acyclic.extend {r s : κ → κ → Prop} (h : Acyclic r) {v : κ}
    (hs : ∀ u w, s u w → w = v ∨ r u w) (hv : ∀ w, ¬ s v w) : Acyclic s := by
  have hold : ∀ {u w}, TransGen s u w → w ≠ v → TransGen r u w := by
    intro u w huw
    induction huw with
    | single huw => exact fun hw => .single ((hs _ _ huw).resolve_left hw)
    | tail _ hbw ih =>
      exact fun hw => (ih fun hb => hv _ (hb ▸ hbw)).tail ((hs _ _ hbw).resolve_left hw)
  intro w hw
  obtain ⟨u, hwu, -⟩ := TransGen.head'_iff.mp hw
  exact h w (hold hw fun heq => hv u (heq ▸ hwu))

/-- A non-empty finite set has a node none of whose predecessors is in the set. The transitive
closure of an acyclic relation is a strict order, and a strict order is well founded on a finite
set. -/
theorem Acyclic.exists_min {r : κ → κ → Prop} (h : Acyclic r) {D : Finset κ}
    (hne : D.Nonempty) : ∃ v ∈ D, ∀ u ∈ D, ¬ r u v := by
  have _ : IsStrictOrder κ (TransGen r) := { irrefl := h, trans := fun _ _ _ => TransGen.trans }
  have hwf := D.wellFoundedOn (r := TransGen r)
  obtain ⟨v, hv⟩ := WellFounded.has_min hwf Set.univ ⟨⟨hne.choose, hne.choose_spec⟩, trivial⟩
  exact ⟨v.1, v.2, fun u hu huv => hv.2 ⟨u, hu⟩ trivial (.single huv)⟩

/-- **Induction along an acyclic relation**, when only finitely many nodes have predecessors: a
property that a node has as soon as its predecessors have it is one that all nodes have.

There need not be a rank to do the induction on. The finite set is what stands in for it: a node
without the property would have predecessors, so all such nodes lie in the set. -/
theorem Acyclic.induction {r : κ → κ → Prop} (h : Acyclic r) (D : Finset κ)
    (hD : ∀ u v, r u v → v ∈ D) {P : κ → Prop} (step : ∀ v, (∀ u, r u v → P u) → P v) (v : κ) :
    P v := by
  classical
  by_contra hv
  -- the nodes of `D` without `P` would have a minimal one, and `step` applies to it
  have hbad : ∀ v, ¬ P v → v ∈ D := by
    intro v hv
    by_contra hvD
    exact hv (step v fun u huv => absurd (hD u v huv) hvD)
  obtain ⟨m, hm, hmin⟩ := h.exists_min (D := D.filter fun v => ¬ P v)
    ⟨v, Finset.mem_filter.mpr ⟨hbad v hv, hv⟩⟩
  refine (Finset.mem_filter.mp hm).2 (step m fun u hum => ?_)
  by_contra hu
  exact hmin u (Finset.mem_filter.mpr ⟨hbad u hu, hu⟩) hum

/-! ## Ordered lists -/

variable (pred : κ → List κ)

/-- In `l`, every node comes after those of its predecessors that satisfy `D`. Stated of every
beginning of the list, so that it says something of lists with duplicates as well. -/
def Ordered (D : κ → Prop) (l : List κ) : Prop :=
  ∀ a v, a ++ [v] <+: l → ∀ u ∈ pred v, D u → u ∈ a

variable {pred}

theorem Ordered.nil {D : κ → Prop} : Ordered pred D [] := by
  intro a v h
  simp at h

theorem Ordered.mono {pred' : κ → List κ} {D D' : κ → Prop} {l : List κ} (h : Ordered pred D l)
    (hp : ∀ v ∈ l, ∀ u ∈ pred' v, u ∈ pred v) (hD : ∀ u, D' u → D u) : Ordered pred' D' l :=
  fun a v hav u hu hDu => h a v hav u (hp v (hav.subset (by simp)) u hu) (hD u hDu)

/-- An ordered list is closed under the predecessors that satisfy `D`. -/
theorem Ordered.mem {D : κ → Prop} {l : List κ} (h : Ordered pred D l) {u v : κ} (hv : v ∈ l)
    (hu : u ∈ pred v) (hD : D u) : u ∈ l := by
  obtain ⟨a, b, rfl⟩ := List.append_of_mem hv
  exact List.mem_append_left _ (h a v ⟨b, by simp⟩ u hu hD)

theorem Ordered.snoc {D : κ → Prop} {l : List κ} {v : κ} (h : Ordered pred D l)
    (hv : ∀ u ∈ pred v, D u → u ∈ l) : Ordered pred D (l ++ [v]) := by
  intro a w haw
  rcases List.prefix_concat_iff.mp haw with heq | hpre
  · obtain ⟨rfl, hw⟩ := List.append_inj' heq rfl
    obtain rfl : w = v := by simpa using hw
    exact hv
  · exact h a w hpre

/-- Nodes whose predecessors are all in `l` may be appended in any order. -/
theorem Ordered.append {D : κ → Prop} {l new : List κ} (h : Ordered pred D l)
    (hnew : ∀ v ∈ new, ∀ u ∈ pred v, D u → u ∈ l) : Ordered pred D (l ++ new) := by
  induction new generalizing l with
  | nil => simpa using h
  | cons v new ih =>
    rw [List.append_cons]
    refine ih (h.snoc (hnew v List.mem_cons_self)) fun w hw u hu hD => ?_
    exact List.mem_append_left _ (hnew w (List.mem_cons_of_mem _ hw) u hu hD)

/-- What is left of an ordered list is ordered as far as the nodes left are concerned. -/
theorem Ordered.filter {D : κ → Prop} {l : List κ} (h : Ordered pred D l) (p : κ → Bool) :
    Ordered pred (fun u => D u ∧ p u) (l.filter p) := by
  induction l using List.reverseRecOn with
  | nil => exact .nil
  | append_singleton l x ih =>
    have hl : Ordered pred (fun u => D u ∧ p u) (l.filter p) :=
      ih fun a v hav => h a v (hav.trans (List.prefix_append l [x]))
    rw [List.filter_append, List.filter_singleton]
    cases p x with
    | true =>
      refine hl.snoc fun u hu hD => List.mem_filter.mpr ⟨?_, hD.2⟩
      exact h l x List.prefix_rfl u hu hD.1
    | false => rwa [cond_false, List.append_nil]

/-! ## Cycles inside a set -/

variable (pred) in
/-- `u` is a predecessor of `v`, and both are in `D`: the edges that a sort of `D` looks at. -/
def Within (D : Finset κ) (u v : κ) : Prop := u ∈ pred v ∧ u ∈ D ∧ v ∈ D

/-- **A finite part of a graph that is acyclic can be listed in order**: take away a node that precedes
none of the others, list these, and put it at the end. -/
theorem Acyclic.exists_ordered {D : Finset κ} (h : Acyclic (Within pred D)) :
    ∃ l : List κ, l.Nodup ∧ (∀ v, v ∈ l ↔ v ∈ D) ∧ Ordered pred (· ∈ D) l := by
  classical
  induction hn : D.card generalizing D with
  | zero =>
    obtain rfl := Finset.card_eq_zero.mp hn
    exact ⟨[], List.nodup_nil, by simp, .nil⟩
  | succ n ih =>
    -- The node to take away is a least one of the relation turned around.
    have hflip : Acyclic fun u v => Within pred D v u := fun v hv => h v (transGen_swap.mp hv)
    obtain ⟨v, hv, hmax⟩ := hflip.exists_min (Finset.card_pos.mp (by omega : 0 < D.card))
    have herase : Acyclic (Within pred (D.erase v)) := h.mono fun u w ⟨hu, huD, hwD⟩ =>
      ⟨hu, Finset.mem_of_mem_erase huD, Finset.mem_of_mem_erase hwD⟩
    obtain ⟨l, hnd, hmem, ho⟩ := ih herase (by rw [Finset.card_erase_of_mem hv, hn]; rfl)
    have hnot : v ∉ l := fun hvl => Finset.notMem_erase v D ((hmem v).mp hvl)
    have hl : Ordered pred (· ∈ D) l := by
      intro a w haw u hu huD
      have hw : w ∈ D := Finset.mem_of_mem_erase ((hmem w).mp (haw.subset (by simp)))
      refine ho a w haw u hu (Finset.mem_erase.mpr ⟨?_, huD⟩)
      rintro rfl
      -- `v` precedes none of `D`
      exact hmax w hw ⟨hu, hv, hw⟩
    refine ⟨l ++ [v], ?_, fun w => ?_, hl.snoc fun u hu huD => ?_⟩
    · rw [← List.concat_eq_append]
      exact hnd.concat hnot
    · rw [List.mem_append, hmem, List.mem_singleton, Finset.mem_erase]
      by_cases hwv : w = v
      · simp [hwv, hv]
      · simp [hwv]
    · refine (hmem u).mpr (Finset.mem_erase.mpr ⟨?_, huD⟩)
      rintro rfl
      exact h.irrefl u ⟨hu, hv, hv⟩

/-- An ordered list has the predecessors of its nodes further to the front. -/
theorem Ordered.idxOf_lt [DecidableEq κ] {D : κ → Prop} {l : List κ} (h : Ordered pred D l)
    {u v : κ} (hv : v ∈ l) (hu : u ∈ pred v) (hD : D u) : l.idxOf u < l.idxOf v := by
  obtain ⟨a, b, rfl, hva⟩ := List.eq_append_cons_of_mem hv
  have hua : u ∈ a := h a v ⟨b, by simp⟩ u hu hD
  rw [List.idxOf_append_of_mem hua, List.idxOf_append_of_notMem hva, List.idxOf_cons_self,
    Nat.add_zero]
  exact List.idxOf_lt_length_of_mem hua

/-- **No cycle leads to a node of an ordered list**: going back along the edges of `D` one stays in
the list and comes further and further to the front. -/
theorem Ordered.no_cycle {D : Finset κ} {l : List κ} (h : Ordered pred (· ∈ D) l) {c v : κ}
    (hv : v ∈ l) (hc : TransGen (Within pred D) c c) (hcv : ReflTransGen (Within pred D) c v) :
    False := by
  classical
  have hback : ∀ {u w}, TransGen (Within pred D) u w → w ∈ l →
      u ∈ l ∧ l.idxOf u < l.idxOf w := by
    intro u w huw
    induction huw using TransGen.head_induction_on with
    | single huw => exact fun hw => ⟨h.mem hw huw.1 huw.2.1, h.idxOf_lt hw huw.1 huw.2.1⟩
    | head hux _ ih =>
      intro hw
      obtain ⟨hx, hlt⟩ := ih hw
      exact ⟨h.mem hx hux.1 hux.2.1, (h.idxOf_lt hx hux.1 hux.2.1).trans hlt⟩
  have hcl : c ∈ l := by
    rcases Relation.reflTransGen_iff_eq_or_transGen.mp hcv with rfl | hcv
    · exact hv
    · exact (hback hcv hv).1
  exact lt_irrefl _ (hback hc hcl).2

/-! ## Counting occurrences -/

/-- Each node of a duplicate-free list contributes its occurrences in `p`; together they are the
elements of `p` that lie in the list. -/
theorem sum_count_eq_countP [DecidableEq κ] {l : List κ} (hl : l.Nodup) (p : List κ) :
    (l.map fun u => p.count u).sum = p.countP (· ∈ l) := by
  induction p with
  | nil => induction l with
    | nil => rfl
    | cons u l ih => simp
  | cons x p ih =>
    have hx : (l.map fun u => (x :: p).count u).sum
        = (l.map fun u => p.count u).sum + l.count x := by
      clear ih hl
      induction l with
      | nil => rfl
      | cons u l ih =>
        simp only [List.map_cons, List.sum_cons, List.count_cons] at ih ⊢
        rw [ih]
        by_cases hux : u = x
        · subst hux; simp; omega
        · have hxu : x ≠ u := Ne.symm hux
          simp [hux, hxu]; omega
    rw [hx, ih, List.countP_cons]
    by_cases hm : x ∈ l
    · simp [hm, List.count_eq_one_of_mem hl hm]
    · simp [hm, List.count_eq_zero_of_not_mem hm]

/-- Counting under a stronger condition and losing nothing leaves no element that satisfies only the
weaker one. This is how an in-degree of zero says that all dependencies are done: they are counted
once as dependencies and once as done, and the two counts agree. -/
theorem forall_of_countP_le {p : List κ} {A B : κ → Bool} (hAB : ∀ u, A u → B u)
    (h : p.countP B ≤ p.countP A) : ∀ u ∈ p, B u → A u := by
  induction p with
  | nil => simp
  | cons x p ih =>
    have hle : p.countP A ≤ p.countP B := List.countP_mono_left fun u _ => hAB u
    rw [List.countP_cons, List.countP_cons] at h
    intro u hu hB
    rcases List.mem_cons.mp hu with rfl | hu
    · by_contra hA
      simp [hA, hB] at h
      omega
    · refine ih ?_ u hu hB
      have hx := hAB x
      split at h <;> split at h <;> simp_all
      omega

end Dag
