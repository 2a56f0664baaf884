import Mathlib.Computability.StateTransition
import Mathlib.Logic.Relation
import Mathlib.Data.Finset.Card
import Mathlib.Data.List.Basic
import Mathlib.Tactic.Common

/-!
# Forward reachability by worklist

The usual loop: pop a node, mark those of its successors that are not marked yet, push exactly
those. The starting nodes are never marked for being starting nodes, so a source is in the result
only if it is downstream of one — the result is the *proper* descendants of the sources
(`mem_loop`), on any graph, cycles included.

The loop runs on fuel; `fuel` bounds it by the queue plus the nodes not marked yet, a quantity each
iteration lowers by exactly one (`visit_measure`). So the loop without fuel, which is `step` as
often as there is something to pop, ends, and ends with the same set (`loop_mem_eval`).

The graph is a function that lists the successors of a node, with repetitions if it likes. It need
not be finite, as long as all successors lie in a finite set `U`, which is what bounds the marking.
A source need not lie in `U`: it is popped once and never marked unless it is a successor.

That the result is a set of nodes and no list is also why the order in which the sources are queued
does not matter. The loop without the marks of the sources is not the textbook one, and the
difference is not an accident: a program that wants to know what has to be recomputed does not want
to recompute what it was given.
-/

namespace Worklist

open Relation

variable {κ : Type*} [DecidableEq κ] (succ : κ → List κ)

/-- The inner loop: mark and push each successor that is not marked yet. -/
def visit : List κ → List κ × Finset κ → List κ × Finset κ
  | [], st => st
  | k :: ks, (queue, seen) =>
    if k ∈ seen then visit ks (queue, seen) else visit ks (queue ++ [k], insert k seen)

/-- The outer loop: pop until the queue is empty. -/
def loop : ℕ → List κ → Finset κ → Finset κ
  | 0, _, seen => seen
  | _ + 1, [], seen => seen
  | n + 1, k :: queue, seen =>
    let st := visit (succ k) (queue, seen)
    loop n st.1 st.2

/-- One iteration of the outer loop, if there is another one. -/
def step : List κ × Finset κ → Option (List κ × Finset κ)
  | ([], _) => none
  | (k :: queue, seen) => some (visit (succ k) (queue, seen))

/-! ## The inner loop -/

theorem mem_visit_snd {ks : List κ} {queue : List κ} {seen : Finset κ} {v : κ} :
    v ∈ (visit ks (queue, seen)).2 ↔ v ∈ seen ∨ v ∈ ks := by
  induction ks generalizing queue seen with
  | nil => simp [visit]
  | cons k ks ih =>
    rw [visit]
    by_cases hk : k ∈ seen
    · rw [if_pos hk, ih, List.mem_cons]
      constructor
      · rintro (h | h)
        · exact Or.inl h
        · exact Or.inr (Or.inr h)
      · rintro (h | rfl | h)
        · exact Or.inl h
        · exact Or.inl hk
        · exact Or.inr h
    · rw [if_neg hk, ih, Finset.mem_insert, List.mem_cons]
      tauto

/-- What is pushed is what is newly marked, behind the queue as it was. -/
theorem mem_visit_fst {ks : List κ} {queue : List κ} {seen : Finset κ} {v : κ} :
    v ∈ (visit ks (queue, seen)).1 ↔ v ∈ queue ∨ (v ∈ ks ∧ v ∉ seen) := by
  induction ks generalizing queue seen with
  | nil => simp [visit]
  | cons k ks ih =>
    rw [visit]
    by_cases hk : k ∈ seen
    · rw [if_pos hk, ih, List.mem_cons]
      by_cases hv : v = k
      · subst hv; simp [hk]
      · simp [hv]
    · rw [if_neg hk, ih, List.mem_append, List.mem_singleton, List.mem_cons, Finset.mem_insert]
      by_cases hv : v = k
      · subst hv; simp [hk]
      · simp [hv]

/-- The queue grows by one exactly when the unmarked nodes shrink by one. So what is queued and what
is unmarked are together as many after a visit as before, and popping makes them one fewer. -/
theorem visit_measure {U : Finset κ} {ks : List κ} (hU : ∀ k ∈ ks, k ∈ U) {queue : List κ}
    {seen : Finset κ} :
    (visit ks (queue, seen)).1.length + (U \ (visit ks (queue, seen)).2).card
      = queue.length + (U \ seen).card := by
  induction ks generalizing queue seen with
  | nil => simp [visit]
  | cons k ks ih =>
    have hks : ∀ x ∈ ks, x ∈ U := fun x hx => hU x (List.mem_cons_of_mem _ hx)
    rw [visit]
    by_cases hk : k ∈ seen
    · rw [if_pos hk, ih hks]
    · rw [if_neg hk, ih hks]
      -- `k` is newly marked: it leaves the unmarked nodes for the queue
      have hmem : k ∈ U \ seen := Finset.mem_sdiff.mpr ⟨hU k List.mem_cons_self, hk⟩
      have herase : U \ insert k seen = (U \ seen).erase k := by
        ext x
        simp only [Finset.mem_sdiff, Finset.mem_insert, Finset.mem_erase]
        tauto
      have hpos : 0 < (U \ seen).card := Finset.card_pos.mpr ⟨k, hmem⟩
      rw [herase, Finset.card_erase_of_mem hmem, List.length_append, List.length_singleton]
      omega

/-! ## The outer loop -/

/-- One edge of the graph. -/
def Edge (a b : κ) : Prop := b ∈ succ a

/-- What the loop keeps: marked nodes are proper descendants of the sources, and a source or a
marked node that is no longer queued has all its successors marked. When nothing is queued the
second says that the marked nodes are closed under successors, which with the first makes them the
descendants. -/
structure Inv (sources : List κ) (queue : List κ) (seen : Finset κ) : Prop where
  sound : ∀ v ∈ seen, ∃ s ∈ sources, TransGen (Edge succ) s v
  queued : ∀ q ∈ queue, q ∈ sources ∨ q ∈ seen
  closed : ∀ a, a ∈ sources ∨ a ∈ seen → a ∉ queue → ∀ b ∈ succ a, b ∈ seen

variable {succ}

omit [DecidableEq κ] in
theorem Inv.start (sources : List κ) : Inv succ sources sources ∅ :=
  ⟨by simp, fun _ hq => Or.inl hq,
    fun _ ha hna => absurd (ha.resolve_right (Finset.notMem_empty _)) hna⟩

theorem Inv.pop {sources queue : List κ} {seen : Finset κ} {k : κ}
    (h : Inv succ sources (k :: queue) seen) :
    Inv succ sources (visit (succ k) (queue, seen)).1 (visit (succ k) (queue, seen)).2 := by
  -- whatever `k` is, its successors are proper descendants of a source
  have hk : ∀ b ∈ succ k, ∃ s ∈ sources, TransGen (Edge succ) s b := by
    intro b hb
    rcases h.queued k List.mem_cons_self with hs | hs
    · exact ⟨k, hs, .single hb⟩
    · obtain ⟨s, hs, hsk⟩ := h.sound k hs
      exact ⟨s, hs, hsk.tail hb⟩
  refine ⟨fun v hv => ?_, fun q hq => ?_, fun a ha hna b hb => ?_⟩
  · rcases mem_visit_snd.mp hv with hv | hv
    · exact h.sound v hv
    · exact hk v hv
  · rw [mem_visit_snd]
    rcases mem_visit_fst.mp hq with hq | ⟨hq, -⟩
    · exact (h.queued q (List.mem_cons_of_mem _ hq)).imp id Or.inl
    · exact Or.inr (Or.inr hq)
  · rw [mem_visit_snd]
    rw [mem_visit_fst, not_or, not_and_not_right] at hna
    by_cases hak : a = k
    · subst hak
      exact Or.inr hb
    · have hold : a ∈ sources ∨ a ∈ seen := by
        rcases ha with ha | ha
        · exact Or.inl ha
        · rcases mem_visit_snd.mp ha with ha | ha
          · exact Or.inr ha
          · exact Or.inr (hna.2 ha)
      refine Or.inl (h.closed a hold ?_ b hb)
      simp [hak, hna.1]

omit [DecidableEq κ] in
theorem mem_of_inv_nil {sources : List κ} {seen : Finset κ} (h : Inv succ sources [] seen)
    {v : κ} : v ∈ seen ↔ ∃ s ∈ sources, TransGen (Edge succ) s v := by
  refine ⟨h.sound v, ?_⟩
  rintro ⟨s, hs, hsv⟩
  induction hsv with
  | single hb => exact h.closed s (Or.inl hs) List.not_mem_nil _ hb
  | tail _ hb ih => exact h.closed _ (Or.inr ih) List.not_mem_nil _ hb

/-- With fuel for the queue and for every node still to be marked, the loop ends on an empty
queue, its invariant intact. -/
theorem Inv.loop {U : Finset κ} (hU : ∀ a, ∀ b ∈ succ a, b ∈ U) {sources : List κ} {n : ℕ}
    {queue : List κ} {seen : Finset κ} (h : Inv succ sources queue seen)
    (hn : queue.length + (U \ seen).card ≤ n) :
    Inv succ sources [] (Worklist.loop succ n queue seen) := by
  induction n generalizing queue seen with
  | zero =>
    have hq : queue = [] := List.length_eq_zero_iff.mp (by omega)
    subst hq
    exact h
  | succ n ih =>
    cases queue with
    | nil => exact h
    | cons k queue =>
      refine ih h.pop ?_
      rw [visit_measure (hU k)]
      simp only [List.length_cons] at hn
      omega

/-- **The worklist loop ends**: as long as there is something to pop it is popped, and with fuel for
the queue and for every node still to be marked that comes to an end before the fuel does. -/
theorem loop_mem_eval {U : Finset κ} (hU : ∀ a, ∀ b ∈ succ a, b ∈ U) {n : ℕ} {queue : List κ}
    {seen : Finset κ} (hn : queue.length + (U \ seen).card ≤ n) :
    ([], loop succ n queue seen) ∈ StateTransition.eval (step succ) (queue, seen) := by
  rw [StateTransition.mem_eval]
  refine ⟨?_, rfl⟩
  induction n generalizing queue seen with
  | zero =>
    have hq : queue = [] := List.length_eq_zero_iff.mp (by omega)
    subst hq
    exact .refl
  | succ n ih =>
    cases queue with
    | nil => exact .refl
    | cons k queue =>
      have hrest : StateTransition.Reaches (step succ) (visit (succ k) (queue, seen))
          ([], loop succ (n + 1) (k :: queue) seen) := by
        refine ih ?_
        rw [visit_measure (hU k)]
        simp only [List.length_cons] at hn
        omega
      exact .head rfl hrest

/-- **The worklist computes forward reachability**: the nodes at the end of a path of one or more
edges from a source, whatever the order of the sources and whatever cycles there are. -/
theorem mem_loop {U : Finset κ} (hU : ∀ a, ∀ b ∈ succ a, b ∈ U) {sources : List κ} {n : ℕ}
    (hn : sources.length + U.card ≤ n) {v : κ} :
    v ∈ loop succ n sources ∅ ↔ ∃ s ∈ sources, TransGen (Edge succ) s v :=
  mem_of_inv_nil ((Inv.start sources).loop hU (by simpa using hn))

end Worklist
