import Mathlib.Data.List.Induction
import Mathlib.Data.List.Nodup

/-!
# Levels of a graph

A scheduler that runs a graph in waves runs, in each, what has nothing left to wait for. `Levels`
says of a list of waves that nothing in it waits for its own wave or a later one, and that nothing
has waited a wave too long. Then **the number of a node's wave is the length of the longest chain of
predecessors above it** (`Levels.hasChain_iff`), so it is the same in every list of waves there is,
and no list of waves runs the node earlier.

The two halves of `Levels` are the two halves of that equation. `earlier` alone would allow a
scheduler that runs one node at a time; with it, a chain above a node is at most as long as there
are waves before. `tight` alone would allow waves that read one another; with it, there is a chain
as long as there are waves before.

`D` is what the waves are about, the nodes a scheduler looks at. A predecessor outside `D` is not
waited for and is no link of a chain. Nothing says that all of `D` is in the waves: a scheduler that
gets stuck has run the levels that it has run.
-/

namespace Dag

variable {κ : Type*} {pred pred' : κ → List κ} {D : κ → Prop}

/-- A chain of `n` predecessors that satisfy `D`, one after the other, ends in the node. There may
be several, and longer ones: it is the longest that counts. -/
def HasChain (pred : κ → List κ) (D : κ → Prop) : ℕ → κ → Prop
  | 0, _ => True
  | n + 1, v => ∃ u ∈ pred v, D u ∧ HasChain pred D n u

structure Levels (pred : κ → List κ) (D : κ → Prop) (ws : List (List κ)) : Prop where
  nodup : ws.flatten.Nodup
  subset : ∀ v ∈ ws.flatten, D v
  nonempty : ∀ w ∈ ws, w ≠ []
  /-- What a node waits for is in the waves before its own. -/
  earlier : ∀ pre w post, ws = pre ++ w :: post → ∀ v ∈ w, ∀ u ∈ pred v, D u → u ∈ pre.flatten
  /-- A node waits for something in the wave just before its own. -/
  tight : ∀ pre w w' post, ws = pre ++ w :: w' :: post → ∀ v ∈ w', ∃ u ∈ w, u ∈ pred v

theorem Levels.nil : Levels pred D [] where
  nodup := List.nodup_nil
  subset := by simp
  nonempty := by simp
  earlier := by simp
  tight := by simp

/-- One wave more: what it asks of the new wave is what a scheduler checks of it, that it is new,
that all it waits for has been run, and that each of its nodes was held up by the wave just
before. -/
theorem Levels.snoc {ws : List (List κ)} {w : List κ} (h : Levels pred D ws) (hne : w ≠ [])
    (hnd : w.Nodup) (hfresh : ∀ v ∈ w, v ∉ ws.flatten) (hD : ∀ v ∈ w, D v)
    (hearlier : ∀ v ∈ w, ∀ u ∈ pred v, D u → u ∈ ws.flatten)
    (htight : ∀ pre w', ws = pre ++ [w'] → ∀ v ∈ w, ∃ u ∈ w', u ∈ pred v) :
    Levels pred D (ws ++ [w]) where
  nodup := by
    rw [List.flatten_append, List.flatten_singleton]
    refine h.nodup.append hnd ?_
    intro v hv hvw
    exact hfresh v hvw hv
  subset v hv := by
    rw [List.flatten_append, List.flatten_singleton, List.mem_append] at hv
    exact hv.elim (h.subset v) (hD v)
  nonempty w' hw' := by
    rcases List.mem_append.mp hw' with hw' | hw'
    · exact h.nonempty w' hw'
    · rwa [List.mem_singleton.mp hw']
  earlier pre w' post heq := by
    -- either the wave in question is the new one, or the split is one of the waves before
    cases post using List.reverseRecOn with
    | nil =>
      obtain ⟨rfl, hw⟩ := List.append_inj' heq rfl
      rw [List.cons.inj hw |>.1] at hearlier
      exact hearlier
    | append_singleton post x =>
      rw [← List.cons_append, ← List.append_assoc] at heq
      obtain ⟨rfl, -⟩ := List.append_inj' heq rfl
      exact h.earlier pre w' post rfl
  tight pre w₁ w₂ post heq := by
    cases post using List.reverseRecOn with
    | nil =>
      rw [List.append_cons pre] at heq
      obtain ⟨rfl, hw⟩ := List.append_inj' heq rfl
      rw [List.cons.inj hw |>.1] at htight
      exact htight pre w₁ rfl
    | append_singleton post x =>
      rw [← List.cons_append, ← List.cons_append, ← List.append_assoc] at heq
      obtain ⟨rfl, -⟩ := List.append_inj' heq rfl
      exact h.tight pre w₁ w₂ post rfl

/-- Only the predecessors of the nodes in the waves matter. -/
theorem Levels.congr {ws : List (List κ)} (h : Levels pred D ws)
    (hp : ∀ v ∈ ws.flatten, pred' v = pred v) : Levels pred' D ws where
  nodup := h.nodup
  subset := h.subset
  nonempty := h.nonempty
  earlier pre w post heq v hv u hu := by
    rw [hp v (by rw [heq]; simp [hv])] at hu
    exact h.earlier pre w post heq v hv u hu
  tight pre w w' post heq v hv := by
    obtain ⟨u, hu, huv⟩ := h.tight pre w w' post heq v hv
    exact ⟨u, hu, by rwa [hp v (by rw [heq]; simp [hv])]⟩

variable {ws : List (List κ)}

/-- **The number of its wave is the length of the longest chain above a node.** In one direction
each link of a chain lies in an earlier wave, by `earlier`; in the other `tight` gives a predecessor
in the wave before, and so a chain through all of them. -/
theorem Levels.hasChain_iff (h : Levels pred D ws) {pre post : List (List κ)} {w : List κ}
    (heq : ws = pre ++ w :: post) {v : κ} (hv : v ∈ w) (n : ℕ) :
    HasChain pred D n v ↔ n ≤ pre.length := by
  constructor
  · -- each link of the chain is in an earlier wave
    intro hc
    induction n generalizing pre w post v with
    | zero => exact Nat.zero_le _
    | succ n ih =>
      obtain ⟨u, hu, hD, hc⟩ := hc
      obtain ⟨w', hw', huw'⟩ := List.mem_flatten.mp (h.earlier pre w post heq v hv u hu hD)
      obtain ⟨pre', post', rfl⟩ := List.append_of_mem hw'
      have heq' : ws = pre' ++ w' :: (post' ++ w :: post) := by simp [heq]
      have hle := ih heq' huw' hc
      rw [List.length_append, List.length_cons]
      omega
  · intro hn
    induction n generalizing pre w post v with
    | zero => trivial
    | succ n ih =>
      cases pre using List.reverseRecOn with
      | nil => exact absurd hn (by simp)
      | append_singleton pre w' =>
        rw [List.append_assoc, List.singleton_append] at heq
        obtain ⟨u, hu, huv⟩ := h.tight pre w' w post heq v hv
        have hDu : D u := h.subset u (by rw [heq]; simp [hu])
        rw [List.length_append, List.length_singleton] at hn
        exact ⟨u, huv, hDu, ih heq hu (by omega)⟩

/-- Nothing in a wave waits for anything in it. -/
theorem Levels.independent (h : Levels pred D ws) {w : List κ} (hw : w ∈ ws) {u v : κ}
    (hu : u ∈ w) (hv : v ∈ w) : u ∉ pred v := by
  intro huv
  obtain ⟨pre, post, heq⟩ := List.append_of_mem hw
  have hD : D u := h.subset u (List.mem_flatten.mpr ⟨w, hw, hu⟩)
  have hpre := h.earlier pre w post heq v hv u huv hD
  have hnd := h.nodup
  rw [heq, List.flatten_append, List.flatten_cons] at hnd
  exact (List.nodup_append.mp hnd).2.2 u hpre u (List.mem_append_left _ hu) rfl

end Dag
