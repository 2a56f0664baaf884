import ReactiveGraph.Lib.Dag
import ReactiveGraph.Lib.FinMap
import Mathlib.Algebra.Order.BigOperators.Group.List
import Mathlib.Computability.StateTransition
import Mathlib.Algebra.Order.Group.Nat

/-!
# Kahn's algorithm on part of a multigraph

The graph is given twice: `pred v`, the dependencies of `v` with repetitions, and `succ u`, the
nodes that depend on `u` with repetitions. A set `D` is to be sorted. In-degrees start at the number
of a node's dependencies inside `D`; popping a node walks its successors and takes one from the
in-degree of each, saturating at zero, and pushes a node when its in-degree reads zero.

Because the decrement saturates and the test is "reads zero" rather than "has just become zero", the
algorithm is right only while a node's in-degree is never taken below zero. That is where the two
lists have to agree. It is enough that an edge is not listed more often among the successors than
among the dependencies (`AtMost`): then the loop ends, and the output has no duplicates, lies in `D`
and is in dependency order (`Sorted`). If inside `D` the two lists agree exactly, a node that is
missing from the output has a dependency that is missing (`Sorted.residue`), and so a cycle leads to
it: the output is what no cycle inside `D` leads to (`Sorted.mem_iff_no_cycle`).

Acyclicity is not assumed anywhere but in the last statement. On a graph with cycles the loop ends
all the same, and what it leaves out is said exactly.

The initial in-degrees come in as a map with the right numbers, and the nodes in some order of
enumeration: how a program computes the one and walks the other is its own affair, and the theorems
hold for every order.
-/

namespace Kahn

open Dag Relation

variable {κ : Type*} [DecidableEq κ] (pred succ : κ → List κ)

/-- One edge out of the popped node: lower the target's in-degree, push it when it reads zero. -/
def relax (st : List κ × FinMap κ ℕ) (dep : κ) : List κ × FinMap κ ℕ :=
  match st.2.get dep with
  | some deg => (if deg - 1 = 0 then st.1 ++ [dep] else st.1, st.2.insert dep (deg - 1))
  | none => st

/-- The main loop. On fuel, since nothing about the lists alone makes it end; one iteration per node
of `D` is enough (`Inv.loop`). -/
def loop : ℕ → List κ → FinMap κ ℕ → List κ → List κ
  | 0, _, _, sorted => sorted
  | _ + 1, [], _, sorted => sorted
  | n + 1, node :: queue, inDegree, sorted =>
    let st := (succ node).foldl relax (queue, inDegree)
    loop n st.1 st.2 (sorted ++ [node])

/-- One iteration of the main loop, if there is another one. -/
def step : List κ × FinMap κ ℕ × List κ → Option (List κ × FinMap κ ℕ × List κ)
  | ([], _, _) => none
  | (node :: queue, inDegree, sorted) =>
    let st := (succ node).foldl relax (queue, inDegree)
    some (st.1, st.2, sorted ++ [node])

/-! ## The inner loop -/

/-- Walking a popped node's successors, when no in-degree is lower than the number of times the
walk will meet its node: every in-degree drops by that number, and the nodes pushed are exactly
those whose in-degree the walk brings to zero, each once. -/
theorem foldl_relax (l queue : List κ) (deg : FinMap κ ℕ)
    (h : ∀ v d, deg.get v = some d → l.count v ≤ d) :
    ∃ new, (l.foldl relax (queue, deg)).1 = queue ++ new ∧ new.Nodup ∧
      (∀ v, v ∈ new ↔ ∃ d, deg.get v = some d ∧ 0 < d ∧ l.count v = d) ∧
      ∀ v, (l.foldl relax (queue, deg)).2.get v = (deg.get v).map (· - l.count v) := by
  induction l generalizing queue deg with
  | nil => exact ⟨[], by simp, List.nodup_nil, fun v => by simp, fun v => by simp⟩
  | cons x l ih =>
    rw [List.foldl_cons]
    cases hx : deg.get x with
    | none =>
      have hstep : relax (queue, deg) x = (queue, deg) := by simp [relax, hx]
      rw [hstep]
      have hne : ∀ v d, deg.get v = some d → (x :: l).count v = l.count v := by
        intro v d hv
        have hvx : x ≠ v := by rintro rfl; rw [hx] at hv; exact absurd hv (by simp)
        simp [hvx]
      obtain ⟨new, h1, h2, h3, h4⟩ :=
        ih queue deg (fun v d hv => by rw [← hne v d hv]; exact h v d hv)
      refine ⟨new, h1, h2, fun v => (h3 v).trans ?_, fun v => (h4 v).trans ?_⟩
      · exact exists_congr fun d => and_congr_right fun hv => by rw [hne v d hv]
      · cases hv : deg.get v with
        | none => rfl
        | some d => simp [hne v d hv]
    | some d₀ =>
      have hd₀ : l.count x + 1 ≤ d₀ := by simpa using h x d₀ hx
      have hstep : relax (queue, deg) x
          = (if d₀ - 1 = 0 then queue ++ [x] else queue, deg.insert x (d₀ - 1)) := by
        simp [relax, hx]
      rw [hstep]
      obtain ⟨new, h1, h2, h3, h4⟩ := ih (if d₀ - 1 = 0 then queue ++ [x] else queue)
        (deg.insert x (d₀ - 1)) (fun v d hv => by
          obtain ⟨rfl, rfl⟩ | ⟨hvx, hv⟩ := FinMap.get_insert_eq_some.mp hv
          · omega
          · have := h v d hv
            rwa [List.count_cons_of_ne (Ne.symm hvx)] at this)
      -- the recursion treats every node but `x` as the whole walk does
      have hmem : ∀ v, v ≠ x → (v ∈ new ↔
          ∃ d, deg.get v = some d ∧ 0 < d ∧ (x :: l).count v = d) := by
        intro v hvx
        rw [h3 v, FinMap.get_insert, if_neg hvx, List.count_cons_of_ne (Ne.symm hvx)]
      have hget : ∀ v, (l.foldl relax
          (if d₀ - 1 = 0 then queue ++ [x] else queue, deg.insert x (d₀ - 1))).2.get v
            = (deg.get v).map (· - (x :: l).count v) := by
        intro v
        rw [h4 v, FinMap.get_insert]
        by_cases hvx : v = x
        · subst hvx
          rw [if_pos rfl, hx]
          simp; omega
        · rw [if_neg hvx, List.count_cons_of_ne (Ne.symm hvx)]
      by_cases h0 : d₀ - 1 = 0
      · have hxnew : x ∉ new := by
          rw [h3 x, FinMap.get_insert_self]
          rintro ⟨d, hd, hpos, -⟩
          rw [Option.some.injEq] at hd
          omega
        refine ⟨x :: new, by rw [h1, if_pos h0]; simp, List.nodup_cons.mpr ⟨hxnew, h2⟩, ?_, hget⟩
        intro v
        by_cases hvx : v = x
        · subst hvx
          simp only [List.mem_cons, true_or, true_iff]
          exact ⟨d₀, hx, by omega, by simp; omega⟩
        · rw [List.mem_cons, or_iff_right hvx, hmem v hvx]
      · refine ⟨new, by rw [h1, if_neg h0], h2, fun v => ?_, hget⟩
        by_cases hvx : v = x
        · subst hvx
          rw [h3 v, FinMap.get_insert_self, hx]
          simp only [Option.some.injEq, exists_eq_left', List.count_cons_self]
          omega
        · exact hmem v hvx

/-! ## What the loop keeps -/

/-- An edge is not listed more often among the successors than among the dependencies. Where it is
listed more often, an in-degree is taken down once too often, and a node may be sorted before one of
its dependencies, or twice. -/
def AtMost : Prop := ∀ u v, (succ u).count v ≤ (pred v).count u

/-- The in-degree of `v` within `D`. -/
def need (D : Finset κ) (v : κ) : ℕ := (pred v).countP (· ∈ D)

/-- The edges into `v` out of the nodes already sorted. -/
def used (sorted : List κ) (v : κ) : ℕ := (sorted.map fun u => (succ u).count v).sum

/-- The loop invariant. The in-degree that is stored for a node is what is left of its dependencies
inside `D` when the edges out of the sorted nodes are taken off, and the nodes that are sorted or
queued are those for which nothing is left. -/
structure Inv (D : Finset κ) (queue : List κ) (deg : FinMap κ ℕ) (sorted : List κ) : Prop where
  nodup : (sorted ++ queue).Nodup
  deg : ∀ v, deg.get v = if v ∈ D then some (need pred D v - used succ sorted v) else none
  mem : ∀ v, v ∈ sorted ++ queue ↔ v ∈ D ∧ need pred D v ≤ used succ sorted v
  ordered : Ordered pred (· ∈ D) (sorted ++ queue)

variable {pred succ}

theorem used_snoc (sorted : List κ) (u v : κ) :
    used succ (sorted ++ [u]) v = used succ sorted v + (succ u).count v := by
  simp [used]

/-- The edges out of sorted nodes are edges out of nodes of the list. -/
theorem used_le (hle : AtMost pred succ) {sorted : List κ} (hnd : sorted.Nodup) (v : κ) :
    used succ sorted v ≤ (pred v).countP (· ∈ sorted) := by
  rw [← sum_count_eq_countP hnd (pred v)]
  exact List.sum_le_sum fun u _ => hle u v

theorem countP_le_need {D : Finset κ} {l : List κ} (hl : ∀ v ∈ l, v ∈ D) (v : κ) :
    (pred v).countP (· ∈ l) ≤ need pred D v :=
  List.countP_mono_left fun u _ hu => by simpa using hl u (by simpa using hu)

/-- A node whose in-degree is used up has all its dependencies inside `D` among the sorted. -/
theorem mem_of_need_le (hle : AtMost pred succ) {D : Finset κ} {sorted : List κ}
    (hnd : sorted.Nodup) (hD : ∀ v ∈ sorted, v ∈ D) {v : κ}
    (hv : need pred D v ≤ used succ sorted v) : ∀ u ∈ pred v, u ∈ D → u ∈ sorted := by
  have hcount : (pred v).countP (fun u => decide (u ∈ D)) ≤ (pred v).countP (· ∈ sorted) :=
    hv.trans (used_le hle hnd v)
  have := forall_of_countP_le (fun u hu => by simpa using hD u (by simpa using hu)) hcount
  intro u hu huD
  simpa using this u hu (by simpa using huD)

theorem Inv.start {D : Finset κ} {order : List κ} (hnd : order.Nodup)
    (hmem : ∀ v, v ∈ order ↔ v ∈ D) {deg : FinMap κ ℕ}
    (hdeg : ∀ v, deg.get v = if v ∈ D then some (need pred D v) else none) :
    Inv pred succ D (order.filter fun v => deg.get v = some 0) deg [] := by
  have hqueue : ∀ v, v ∈ order.filter (fun v => decide (deg.get v = some 0)) ↔
      v ∈ D ∧ need pred D v = 0 := by
    intro v
    rw [List.mem_filter, hmem, decide_eq_true_eq, hdeg v]
    constructor
    · rintro ⟨hv, h0⟩; rw [if_pos hv] at h0; exact ⟨hv, by simpa using h0⟩
    · rintro ⟨hv, h0⟩; rw [if_pos hv, h0]; exact ⟨hv, rfl⟩
  refine ⟨by simpa using hnd.filter _, by simpa [used] using hdeg, ?_, ?_⟩
  · intro v
    rw [List.nil_append, hqueue v]
    simp [used]
  · rw [List.nil_append]
    refine Ordered.append (l := []) .nil fun v hv u hu huD => ?_
    -- a node that starts in the queue has no dependency in `D`
    have h0 := ((hqueue v).mp hv).2
    exact absurd (by simpa using huD) (List.countP_eq_zero.mp h0 u hu)

/-- **One iteration keeps the invariant.** `AtMost` is used once, for the decrements: those that are
about to come for a node do not exceed what its in-degree still counts. -/
theorem Inv.pop (hle : AtMost pred succ) {D : Finset κ} {node : κ} {queue sorted : List κ}
    {deg : FinMap κ ℕ} (h : Inv pred succ D (node :: queue) deg sorted) :
    Inv pred succ D ((succ node).foldl relax (queue, deg)).1
      ((succ node).foldl relax (queue, deg)).2 (sorted ++ [node]) := by
  have hcat : (sorted ++ [node]) ++ queue = sorted ++ node :: queue := by simp
  have hnd : (sorted ++ [node]).Nodup := (hcat ▸ h.nodup).of_append_left
  have hD : ∀ v ∈ sorted ++ [node], v ∈ D := fun v hv =>
    ((h.mem v).mp (hcat ▸ List.mem_append_left _ hv)).1
  -- with `node` sorted, the edges used into a node are still among its dependencies
  have hub : ∀ v, used succ (sorted ++ [node]) v ≤ need pred D v := fun v =>
    (used_le hle hnd v).trans (countP_le_need hD v)
  obtain ⟨new, h1, h2, h3, h4⟩ := foldl_relax (succ node) queue deg
    (fun v d hv => by
      rw [h.deg v] at hv
      split at hv
      · have := hub v
        rw [used_snoc] at this
        rw [Option.some.injEq] at hv
        omega
      · exact absurd hv (by simp))
  have hmem : ∀ v, v ∈ (sorted ++ [node]) ++ (queue ++ new) ↔
      v ∈ D ∧ need pred D v ≤ used succ (sorted ++ [node]) v := by
    intro v
    rw [← List.append_assoc, hcat, List.mem_append, h.mem v, h3 v, h.deg v, used_snoc]
    have := hub v
    rw [used_snoc] at this
    constructor
    · rintro (⟨hv, hle'⟩ | ⟨d, hd, hpos, hc⟩)
      · exact ⟨hv, by omega⟩
      · split at hd
        · rw [Option.some.injEq] at hd
          exact ⟨by assumption, by omega⟩
        · exact absurd hd (by simp)
    · rintro ⟨hv, hle'⟩
      by_cases hold : need pred D v ≤ used succ sorted v
      · exact Or.inl ⟨hv, hold⟩
      · exact Or.inr ⟨_, by rw [if_pos hv], by omega, by omega⟩
  refine ⟨?_, fun v => ?_, by rw [h1]; exact hmem, ?_⟩
  · rw [h1, ← List.append_assoc, hcat]
    refine List.nodup_append.mpr ⟨h.nodup, h2, ?_⟩
    rintro a ha b hb rfl
    -- what is pushed had an in-degree left, what is listed had none
    obtain ⟨d, hd, hpos, -⟩ := (h3 a).mp hb
    obtain ⟨haD, hal⟩ := (h.mem a).mp ha
    rw [h.deg a, if_pos haD, Option.some.injEq] at hd
    omega
  · rw [h4 v, h.deg v, used_snoc]
    split
    · simp [Nat.sub_sub]
    · rfl
  · rw [h1, ← List.append_assoc, hcat]
    refine h.ordered.append fun v hv u hu huD => ?_
    have hvm := (hmem v).mp (List.mem_append_right _ (List.mem_append_right _ hv))
    rw [← hcat]
    exact List.mem_append_left _ (mem_of_need_le hle hnd hD hvm.2 u hu huD)

theorem Inv.length_le {D : Finset κ} {queue sorted : List κ} {deg : FinMap κ ℕ}
    (h : Inv pred succ D queue deg sorted) : sorted.length + queue.length ≤ D.card := by
  rw [← List.length_append, ← List.toFinset_card_of_nodup h.nodup]
  exact Finset.card_le_card fun v hv => ((h.mem v).mp (List.mem_toFinset.mp hv)).1

/-- Fuel for one iteration per node of `D` is enough: the loop without fuel ends there, on an empty
queue. -/
theorem Inv.loop (hle : AtMost pred succ) {D : Finset κ} {n : ℕ} {queue sorted : List κ}
    {deg : FinMap κ ℕ} (h : Inv pred succ D queue deg sorted) (hn : D.card ≤ n + sorted.length) :
    ∃ deg', Inv pred succ D [] deg' (loop succ n queue deg sorted) ∧
      StateTransition.Reaches (step succ) (queue, deg, sorted)
        ([], deg', Kahn.loop succ n queue deg sorted) := by
  induction n generalizing queue sorted deg with
  | zero =>
    have := h.length_le
    have hq : queue = [] := List.length_eq_zero_iff.mp (by omega)
    subst hq
    exact ⟨deg, h, .refl⟩
  | succ n ih =>
    cases queue with
    | nil => exact ⟨deg, h, .refl⟩
    | cons node queue =>
      obtain ⟨deg', h', hreach⟩ := ih (h.pop hle) (by
        simp only [List.length_append, List.length_singleton]
        omega)
      exact ⟨deg', h', .head rfl hreach⟩

/-! ## The result -/

variable (pred succ) in
/-- What the output of the sort is, whatever order the nodes were enumerated in. The last field is
why a node is missing: not all edges into it have been used up. -/
structure Sorted (D : Finset κ) (l : List κ) : Prop where
  nodup : l.Nodup
  subset : ∀ v ∈ l, v ∈ D
  ordered : Ordered pred (· ∈ D) l
  rest : ∀ v ∈ D, v ∉ l → used succ l v < need pred D v

theorem sorted_loop (hle : AtMost pred succ) {D : Finset κ} {order : List κ} (hnd : order.Nodup)
    (hmem : ∀ v, v ∈ order ↔ v ∈ D) {deg : FinMap κ ℕ}
    (hdeg : ∀ v, deg.get v = if v ∈ D then some (need pred D v) else none) {n : ℕ}
    (hn : D.card ≤ n) :
    Sorted pred succ D (loop succ n (order.filter fun v => deg.get v = some 0) deg []) ∧
      ∃ deg', ([], deg', loop succ n (order.filter fun v => deg.get v = some 0) deg []) ∈
        StateTransition.eval (step succ) (order.filter fun v => deg.get v = some 0, deg, []) := by
  have hstart : Inv pred succ D (order.filter fun v => deg.get v = some 0) deg [] :=
    Inv.start hnd hmem hdeg
  obtain ⟨deg', h, hreach⟩ := hstart.loop (n := n) hle (by simpa using hn)
  have hmem' := h.mem
  simp only [List.append_nil] at hmem'
  refine ⟨⟨by simpa using h.nodup, fun v hv => ((hmem' v).mp hv).1,
    by simpa using h.ordered, fun v hv hvl => ?_⟩, deg', StateTransition.mem_eval.mpr ⟨hreach, rfl⟩⟩
  by_contra hc
  exact hvl ((hmem' v).mpr ⟨hv, by omega⟩)

/-- The edges of the two lists agree inside `D`. -/
def ExactOn (pred succ : κ → List κ) (D : Finset κ) : Prop :=
  ∀ u ∈ D, ∀ v ∈ D, (succ u).count v = (pred v).count u

/-- A node with in-degree left has a dependency that is not sorted yet. -/
theorem exists_missing {D : Finset κ} {l : List κ} (hnd : l.Nodup) (hsub : ∀ v ∈ l, v ∈ D)
    (hex : ExactOn pred succ D) {v : κ} (hv : v ∈ D) (hlt : used succ l v < need pred D v) :
    ∃ u ∈ pred v, u ∈ D ∧ u ∉ l := by
  by_contra hno
  have hall : ∀ u ∈ pred v, u ∈ D → u ∈ l := fun u hu huD => by
    by_contra hul
    exact hno ⟨u, hu, huD, hul⟩
  have hused : used succ l v = (pred v).countP (· ∈ l) := by
    rw [← sum_count_eq_countP hnd (pred v), used]
    exact congrArg List.sum (List.map_congr_left fun u hu => hex u (hsub u hu) v hv)
  have hneed : need pred D v ≤ (pred v).countP (· ∈ l) :=
    List.countP_mono_left fun u hu huD => by simpa using hall u hu (by simpa using huD)
  omega

/-- A node missing from the output has a dependency that is missing too. -/
theorem Sorted.residue {D : Finset κ} {l : List κ} (h : Sorted pred succ D l)
    (hex : ExactOn pred succ D) {v : κ} (hv : v ∈ D) (hvl : v ∉ l) :
    ∃ u ∈ pred v, u ∈ D ∧ u ∉ l :=
  exists_missing h.nodup h.subset hex hv (h.rest v hv hvl)

/-- **The sort lists what no cycle inside `D` leads to.** Going back from a missing node along
missing dependencies one never leaves the missing nodes, which are finitely many, so one comes
round; and from a cycle nothing can be listed, as the first of its nodes to be listed would have a
dependency before it. -/
theorem Sorted.mem_iff_no_cycle {D : Finset κ} {l : List κ} (h : Sorted pred succ D l)
    (hex : ExactOn pred succ D) {v : κ} : v ∈ l ↔ v ∈ D ∧
      ¬ ∃ c, TransGen (Within pred D) c c ∧ ReflTransGen (Within pred D) c v := by
  classical
  constructor
  · intro hv
    exact ⟨h.subset v hv, fun ⟨c, hc, hcv⟩ => h.ordered.no_cycle hv hc hcv⟩
  · rintro ⟨hv, hno⟩
    by_contra hvl
    -- the missing nodes that lead to `v` have no cycle among them, and so a first one
    set A := D.filter fun u => u ∉ l ∧ ReflTransGen (Within pred D) u v with hA
    have hac : Acyclic fun u w => Within pred D u w ∧ w ∈ A := by
      intro c hc
      obtain ⟨-, -, -, hcA⟩ := TransGen.tail'_iff.mp hc
      exact hno ⟨c, TransGen.mono (fun _ _ huw => huw.1) _ _ hc, (Finset.mem_filter.mp hcA).2.2⟩
    obtain ⟨m, hm, hmin⟩ := hac.exists_min (D := A) ⟨v, Finset.mem_filter.mpr ⟨hv, hvl, .refl⟩⟩
    obtain ⟨hmD, hml, hmv⟩ := Finset.mem_filter.mp hm
    obtain ⟨u, hu, huD, hul⟩ := h.residue hex hmD hml
    have hum : Within pred D u m := ⟨hu, huD, hmD⟩
    exact hmin u (Finset.mem_filter.mpr ⟨huD, hul, .head hum hmv⟩) ⟨hum, hm⟩

/-- **On an acyclic graph the sort lists all of `D`.** -/
theorem Sorted.mem_iff {D : Finset κ} {l : List κ} (h : Sorted pred succ D l)
    (hex : ExactOn pred succ D) (hac : Acyclic fun u v => u ∈ pred v) {v : κ} :
    v ∈ l ↔ v ∈ D := by
  rw [h.mem_iff_no_cycle hex, and_iff_left]
  rintro ⟨c, hc, -⟩
  exact hac.mono (fun _ _ huw => huw.1) c hc

end Kahn
