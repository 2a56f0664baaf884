import Mathlib.Order.WellFounded

/-!
# Networks of computed values

A network has nodes that are given their values and nodes that compute them from those of their
predecessors; a node may have no value, and a computed node has none when one of its predecessors
has none. Nothing computes itself (`wf`), so the given values determine everything: a network has at
most one solution for them (`Solves.unique`).

An engine that keeps a solution up to date does not start from nothing. It takes new given values
into the solution it has, recomputes, and where a node computes nothing may leave the value that was
there. `Solves.update` says when that is harmless: if given values are replaced but never taken
back, and computing only fails for want of a value, then what was there was nothing.

The second condition is `Total`, and it is relative to what values are allowed where. A function may
well fail on values that its predecessors never have: what matters is that allowed values give an
allowed value. Without it, a node that fails on new values keeps the old one, and the state is a
solution for no given values at all.

Nothing is said here of an order of computation, nor of how an engine finds out what to recompute. A
state solves the network or it does not; that an engine's cycle ends in such a state is proved of
the engine.
-/

variable {κ S W : Type*}

/-- A network over states `S`, in which `get s k` is the value of node `k`. Predecessors are lists,
as the programs have them, and `eval` looks at the whole state but depends on the predecessors
only. -/
structure Network (get : S → κ → Option W) where
  computed : κ → Prop
  pred : κ → List κ
  eval : κ → S → Option W
  congr : ∀ k s s', (∀ u ∈ pred k, get s u = get s' u) → eval k s = eval k s'
  strict : ∀ k s, (∃ u ∈ pred k, get s u = none) → eval k s = none
  wf : WellFounded fun u k => u ∈ pred k

namespace Network

variable {get : S → κ → Option W} (N : Network get)

/-- Computed nodes have what they compute, and the others what they are given. Both may be
nothing. -/
structure Solves (given : κ → Option W) (s : S) : Prop where
  computed : ∀ k, N.computed k → get s k = N.eval k s
  given : ∀ k, ¬ N.computed k → get s k = given k

/-- **Computing fails only for want of a value**, as long as the values are allowed where they
stand, and gives allowed values. -/
def Total (allowed : κ → W → Prop) : Prop :=
  ∀ k s, N.computed k → (∀ u ∈ N.pred k, ∃ w, get s u = some w ∧ allowed u w) →
    ∃ w, N.eval k s = some w ∧ allowed k w

variable {N} {given given' : κ → Option W} {s s' : S} {allowed : κ → W → Prop}

/-- A node that computes something finds a value at each predecessor. -/
theorem exists_of_eval {k : κ} {w : W} (h : N.eval k s = some w) :
    ∀ u ∈ N.pred k, ∃ w', get s u = some w' := by
  intro u hu
  by_contra hnone
  rw [N.strict k s ⟨u, hu, Option.eq_none_iff_forall_ne_some.mpr fun w' hw' => hnone ⟨w', hw'⟩⟩] at h
  exact absurd h (by simp)

/-- **The given values determine everything**: by induction along the predecessors, two solutions
for the same given values agree at every node. -/
theorem Solves.unique (h : N.Solves given s) (h' : N.Solves given s') (k : κ) :
    get s k = get s' k := by
  induction k using N.wf.induction with
  | h k ih =>
    by_cases hk : N.computed k
    · rw [h.computed k hk, h'.computed k hk, N.congr k s s' ih]
    · rw [h.given k hk, h'.given k hk]

/-- **Taking in new values.** If `s` solves the network for `given`, the new values are nowhere
missing where there was one, and in `s'` every computed node either has what it computes or
computes nothing and has what it had, then `s'` solves the network for the new values. -/
theorem Solves.update (htotal : N.Total allowed) (h : N.Solves given s)
    (hold : ∀ k w, given k = some w → ∃ w', given' k = some w')
    (hallowed : ∀ k w, given' k = some w → allowed k w)
    (hcomputed : ∀ k, N.computed k →
      get s' k = N.eval k s' ∨ (N.eval k s' = none ∧ get s' k = get s k))
    (hgiven : ∀ k, ¬ N.computed k → get s' k = given' k) : N.Solves given' s' := by
  -- a node that had a value has an allowed one, and one it computes if it is computed
  have hkept : ∀ k w, get s k = some w → ∃ w', get s' k = some w' ∧ allowed k w' ∧
      (N.computed k → N.eval k s' = some w') := by
    intro k
    induction k using N.wf.induction with
    | h k ih =>
      intro w hw
      by_cases hk : N.computed k
      · rw [h.computed k hk] at hw
        obtain ⟨w', hw', hok⟩ := htotal k s' hk fun u hu => by
          obtain ⟨x, hx⟩ := exists_of_eval hw u hu
          obtain ⟨x', hx', hok, -⟩ := ih u hu x hx
          exact ⟨x', hx', hok⟩
        rcases hcomputed k hk with heq | ⟨hnone, -⟩
        · exact ⟨w', heq.trans hw', hok, fun _ => hw'⟩
        · exact absurd (hnone.symm.trans hw') (by simp)
      · rw [h.given k hk] at hw
        obtain ⟨w', hw'⟩ := hold k w hw
        exact ⟨w', (hgiven k hk).trans hw', hallowed k w' hw', fun hk' => absurd hk' hk⟩
  refine ⟨fun k hk => ?_, hgiven⟩
  rcases hcomputed k hk with heq | ⟨hnone, hsame⟩
  · exact heq
  · -- nothing is computed now, so nothing was there before
    cases hw : get s k with
    | none => rw [hsame, hw, hnone]
    | some w =>
      obtain ⟨w', -, -, heval⟩ := hkept k w hw
      exact absurd (hnone.symm.trans (heval hk)) (by simp)

end Network
