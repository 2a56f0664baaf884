import Mathlib.Order.WellFounded
import ReactiveGraph.Lib.Runs

/-!
# Coming to rest

A machine is given with a rank on its states, and some of its actions either change nothing or lower
the rank (`Lowers`). A run of such actions cannot change the state for ever. So **an endless schedule
of them changes nothing from some point on** (`eventually_fixed`), whatever it is: no schedule has to
be chosen well.

That alone does not say that nothing could be changed there: the schedule may never take the action
that would. What it takes again and again it also takes after that point, and so among any actions
that recur there is one that changes nothing (`eventually_rests`). A schedule that is fair, in that
it takes each kind of action again and again, therefore ends in a state that no kind changes. Which
kinds these are, and why such a state is a good one, is for the machine to say.
-/

namespace Rest

variable {σ α ρ : Type*} {apply : σ → α → σ}

/-- The states that a schedule leads through. A schedule is an endless list of actions, given by
their numbers. -/
def states (apply : σ → α → σ) (s : σ) (f : ℕ → α) : ℕ → σ
  | 0 => s
  | n + 1 => apply (states apply s f n) (f n)

/-- A state of a schedule is where a run of its first actions ends. -/
theorem states_eq_run (s : σ) (f : ℕ → α) (n : ℕ) :
    states apply s f n = Runs.run apply s ((List.range n).map f) := by
  induction n with
  | zero => rfl
  | succ n ih =>
    rw [states, List.range_succ, List.map_append, Runs.run_append, ← ih]
    rfl

/-- The schedule takes an action of the set again and again: after any number of actions another one
comes. This is all that is asked of a fair schedule, for each set of actions by itself. -/
def Recurs (f : ℕ → α) (C : α → Prop) : Prop := ∀ n, ∃ m, n ≤ m ∧ C (f m)

/-- Where the invariant holds, an action of the kind keeps it and changes nothing or lowers the
rank. The rank takes its values in any well-founded order, so it may be a pair, or longer. -/
structure Lowers (apply : σ → α → σ) (cond : α → Prop) (I : σ → Prop) (lt : ρ → ρ → Prop)
    (rank : σ → ρ) : Prop where
  wf : WellFounded lt
  keeps : ∀ s a, I s → cond a → I (apply s a)
  lowers : ∀ s a, I s → cond a → apply s a = s ∨ lt (rank (apply s a)) (rank s)

variable {cond : α → Prop} {I : σ → Prop} {lt : ρ → ρ → Prop} {rank : σ → ρ} {s : σ}

theorem Lowers.states (h : Lowers apply cond I lt rank) (hs : I s) {f : ℕ → α}
    (hf : ∀ n, cond (f n)) (n : ℕ) : I (states apply s f n) := by
  induction n with
  | zero => exact hs
  | succ n ih => exact h.keeps _ _ ih (hf n)

/-- **An endless schedule of the actions changes nothing from some point on.** Among the ranks that
the schedule passes through there is a least one; where it is reached, no later action can lower
it. -/
theorem Lowers.eventually_fixed (h : Lowers apply cond I lt rank) (hs : I s) {f : ℕ → α}
    (hf : ∀ n, cond (f n)) :
    ∃ n, ∀ m, n ≤ m → Rest.states apply s f m = Rest.states apply s f n := by
  -- where the rank is least nothing can happen any more
  obtain ⟨_, ⟨n, rfl⟩, hmin⟩ := h.wf.has_min
    (Set.range fun n => rank (Rest.states apply s f n)) ⟨_, 0, rfl⟩
  refine ⟨n, fun m hm => ?_⟩
  induction m, hm using Nat.le_induction with
  | base => rfl
  | succ m hm ih =>
    refine ((h.lowers _ (f m) (h.states hs hf m) (hf m)).resolve_right fun hlt => ?_).trans ih
    rw [ih] at hlt
    refine hmin _ ⟨m + 1, rfl⟩ ?_
    simpa only [Rest.states, ih] using hlt

/-- **And among the actions that it takes again and again there is always one that changes nothing
there.** The point is the same for all sets of actions, so for a fair schedule the state there is at
rest in every respect. -/
theorem Lowers.eventually_rests (h : Lowers apply cond I lt rank) (hs : I s) {f : ℕ → α}
    (hf : ∀ n, cond (f n)) :
    ∃ n, (∀ m, n ≤ m → Rest.states apply s f m = Rest.states apply s f n) ∧
      ∀ C : α → Prop, Recurs f C → ∃ a, C a ∧
        apply (Rest.states apply s f n) a = Rest.states apply s f n := by
  obtain ⟨n, hn⟩ := h.eventually_fixed hs hf
  refine ⟨n, hn, fun C hC => ?_⟩
  obtain ⟨m, hm, hc⟩ := hC n
  refine ⟨f m, hc, ?_⟩
  have hnext := hn (m + 1) (by omega)
  rwa [Rest.states, hn m hm] at hnext

end Rest
