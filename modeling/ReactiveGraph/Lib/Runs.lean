import Mathlib.Data.List.Basic

/-!
# Runs of a deterministic machine

A machine here is a function `apply : σ → α → σ`: a state, an action, the next state. Whatever is
nondeterministic about the system being modelled — which party moves, in which order a hash set is
walked — sits in the action, so "for every interleaving" is "for every list of actions". An action
that is not possible in a state changes nothing there, so every list of actions is a run.

Two ways of quantifying over a run are used everywhere: `Always`, a property of every state the run
passes through, and `AllSteps`, a condition every step meets in the state it is taken from. Both go
down the list and are decidable when what they quantify is, so that a run on a fixed input can be
checked.

The rules below carry the inductions over runs of the development, so that a theorem about runs is
proved by what one step does:

- `invariant` and its variants, for what every run has;
- `always_iff_allSteps` and `lockstep_iff_allSteps`, for a property that a run has exactly if its
  steps meet a condition, the second for two machines side by side;
- `allSteps_or_trapped`, for a run that can go wrong once and for good;
- `history` and `trace_induction`, for what a run has put out so far.
-/

namespace Runs

variable {σ α : Type*} (apply : σ → α → σ)

/-- The state a list of actions ends in. -/
def run (s : σ) (as : List α) : σ := as.foldl apply s

/-- Every step of the run meets `cond` in the state it is taken from. -/
def AllSteps (cond : σ → α → Prop) : σ → List α → Prop
  | _, [] => True
  | s, a :: as => cond s a ∧ AllSteps cond (apply s a) as

/-- `P` holds in every state the run passes through, the first and the last included. By
`Always.last` it is enough to look at all runs' ends, if `P` is to hold of all runs. -/
def Always (P : σ → Prop) : σ → List α → Prop
  | s, [] => P s
  | s, a :: as => P s ∧ Always P (apply s a) as

instance AllSteps.decidable {cond : σ → α → Prop} [∀ s a, Decidable (cond s a)] :
    ∀ s as, Decidable (AllSteps apply cond s as)
  | _, [] => .isTrue trivial
  | s, a :: as => @instDecidableAnd _ _ _ (AllSteps.decidable (apply s a) as)

instance Always.decidable {P : σ → Prop} [DecidablePred P] :
    ∀ s as, Decidable (Always apply P s as)
  | s, [] => inferInstanceAs (Decidable (P s))
  | s, a :: as => @instDecidableAnd _ _ _ (Always.decidable (apply s a) as)

@[simp] theorem run_nil (s : σ) : run apply s [] = s := rfl

@[simp] theorem run_cons (s : σ) (a : α) (as : List α) :
    run apply s (a :: as) = run apply (apply s a) as := rfl

theorem run_append (s : σ) (as bs : List α) :
    run apply s (as ++ bs) = run apply (run apply s as) bs := List.foldl_append

variable {apply}

/-- A state that no action changes is where a run from it ends. -/
theorem run_of_fixed {s : σ} (h : ∀ a, apply s a = s) (as : List α) : run apply s as = s := by
  induction as with
  | nil => rfl
  | cons a as ih => rw [run_cons, h a, ih]

theorem AllSteps.and {c d : σ → α → Prop} :
    ∀ {s : σ} {as : List α}, AllSteps apply c s as → AllSteps apply d s as →
      AllSteps apply (fun s a => c s a ∧ d s a) s as
  | _, [], _, _ => trivial
  | _, _ :: _, hc, hd => ⟨⟨hc.1, hd.1⟩, AllSteps.and hc.2 hd.2⟩

/-- A condition on the actions alone is a condition on the list. -/
theorem AllSteps.of_forall {c : α → Prop} {s : σ} {as : List α} (h : ∀ a ∈ as, c a) :
    AllSteps apply (fun _ a => c a) s as := by
  induction as generalizing s with
  | nil => trivial
  | cons a as ih => exact ⟨h a List.mem_cons_self, ih fun b hb => h b (List.mem_cons_of_mem _ hb)⟩

theorem AllSteps.append {c : σ → α → Prop} {s : σ} {as bs : List α} :
    AllSteps apply c s (as ++ bs) ↔
      AllSteps apply c s as ∧ AllSteps apply c (run apply s as) bs := by
  induction as generalizing s with
  | nil => simp [AllSteps]
  | cons a as ih => simp only [List.cons_append, AllSteps, run_cons, and_assoc, ih]

theorem Always.head {P : σ → Prop} {s : σ} {as : List α} (h : Always apply P s as) : P s := by
  cases as with
  | nil => exact h
  | cons a as => exact h.1

theorem Always.last {P : σ → Prop} {s : σ} {as : List α} (h : Always apply P s as) :
    P (run apply s as) := by
  induction as generalizing s with
  | nil => exact h
  | cons a as ih => exact ih h.2

theorem Always.snoc {P : σ → Prop} {s : σ} {as : List α} {a : α} :
    Always apply P s (as ++ [a]) ↔ Always apply P s as ∧ P (run apply s (as ++ [a])) := by
  induction as generalizing s with
  | nil => exact Iff.rfl
  | cons b as ih => simp only [List.cons_append, Always, run_cons, ih, and_assoc]

/-! ## The invariant rules -/

/-- **The invariant rule.** What holds at the start and is preserved by every step that meets the
condition holds wherever a run of such steps ends. The condition may look at the state the step is
taken from, so it can say what a careful client checks before it acts. -/
theorem invariant {I : σ → Prop} {cond : σ → α → Prop}
    (step : ∀ s a, I s → cond s a → I (apply s a)) {s : σ} {as : List α}
    (h0 : I s) (hs : AllSteps apply cond s as) : I (run apply s as) := by
  induction as generalizing s with
  | nil => exact h0
  | cons a as ih => exact ih (step s a h0 hs.1) hs.2

/-- The same, for every state on the way, with a property the invariant implies. -/
theorem always_of_invariant {I P : σ → Prop} {cond : σ → α → Prop}
    (step : ∀ s a, I s → cond s a → I (apply s a)) (hP : ∀ s, I s → P s) {s : σ} {as : List α}
    (h0 : I s) (hs : AllSteps apply cond s as) : Always apply P s as := by
  induction as generalizing s with
  | nil => exact hP s h0
  | cons a as ih => exact ⟨hP s h0, ih (step s a h0 hs.1) hs.2⟩

/-- Steps that promise something which, with the invariant, gives the condition and keeps the
invariant meet the condition all along. -/
theorem allSteps_of_invariant {I : σ → Prop} {cond : σ → α → Prop} {P : α → Prop}
    (step : ∀ s a, I s → P a → cond s a ∧ I (apply s a)) {s : σ} {as : List α} (h0 : I s)
    (has : ∀ a ∈ as, P a) : AllSteps apply cond s as := by
  induction as generalizing s with
  | nil => trivial
  | cons a as ih =>
    obtain ⟨hc, hI⟩ := step s a h0 (has a List.mem_cons_self)
    exact ⟨hc, ih hI fun b hb => has b (List.mem_cons_of_mem _ hb)⟩

/-- An invariant that every step keeps holds wherever a run ends. -/
theorem invariant_of_step {I : σ → Prop} (step : ∀ s a, I s → I (apply s a)) {s : σ} {as : List α}
    (h0 : I s) : I (run apply s as) :=
  invariant (fun s a h (_ : True) => step s a h) h0 (.of_forall fun _ _ => trivial)

/-- The same, for every state on the way. -/
theorem always_of_step {I P : σ → Prop} (step : ∀ s a, I s → I (apply s a)) (hP : ∀ s, I s → P s)
    {s : σ} {as : List α} (h0 : I s) : Always apply P s as :=
  always_of_invariant (fun s a h (_ : True) => step s a h) hP h0 (.of_forall fun _ _ => trivial)

/-- **The exact-condition rule.** If a step that meets `cond` keeps the invariant, and a step that
does not meet it leads to a state without `P`, then `P` holds throughout a run exactly when every
step of it meets `cond`. `H` is what is assumed of every step either way.

The invariant is only known as long as all steps have met the condition, and `bad` needs it: the
first step that does not meet the condition is taken from a state that is still in order. -/
theorem always_iff_allSteps {I P : σ → Prop} {H cond : σ → α → Prop}
    (hP : ∀ s, I s → P s)
    (step : ∀ s a, I s → H s a → cond s a → I (apply s a))
    (bad : ∀ s a, I s → H s a → ¬ cond s a → ¬ P (apply s a)) {s : σ} {as : List α}
    (h0 : I s) (hh : AllSteps apply H s as) :
    Always apply P s as ↔ AllSteps apply cond s as := by
  induction as generalizing s with
  | nil => exact ⟨fun _ => trivial, fun _ => hP s h0⟩
  | cons a as ih =>
    constructor
    · rintro ⟨-, h⟩
      by_cases hc : cond s a
      · exact ⟨hc, (ih (step s a h0 hh.1 hc) hh.2).mp h⟩
      · exact absurd h.head (bad s a h0 hh.1 hc)
    · rintro ⟨hc, h⟩
      exact ⟨hP s h0, (ih (step s a h0 hh.1 hc) hh.2).mpr h⟩

/-- **The lockstep rule.** Two machines take the same actions. If a step that meets `cond` keeps the
invariant between their states, and a step that does not meet it leads to states without `P`, then
`P` relates the states after every prefix exactly when every step of the first meets `cond`. -/
theorem lockstep_iff_allSteps {τ : Type*} {apply' : τ → α → τ} {I P : σ → τ → Prop}
    {cond : σ → α → Prop} (hP : ∀ s t, I s t → P s t)
    (step : ∀ s t a, I s t → cond s a → I (apply s a) (apply' t a))
    (bad : ∀ s t a, I s t → ¬ cond s a → ¬ P (apply s a) (apply' t a)) {s : σ} {t : τ}
    {as : List α} (h0 : I s t) :
    (∀ bs, bs <+: as → P (run apply s bs) (run apply' t bs)) ↔ AllSteps apply cond s as := by
  induction as generalizing s t with
  | nil =>
    refine ⟨fun _ => trivial, fun _ bs hbs => ?_⟩
    rw [List.prefix_nil.mp hbs]
    exact hP s t h0
  | cons a as ih =>
    constructor
    · intro h
      by_cases hc : cond s a
      · exact ⟨hc, (ih (step s t a h0 hc)).mp fun bs hbs =>
          h (a :: bs) ((List.prefix_cons_inj a).mpr hbs)⟩
      · exact absurd (h [a] ((List.prefix_cons_inj a).mpr List.nil_prefix)) (bad s t a h0 hc)
    · rintro ⟨hc, hcs⟩ bs hbs
      cases bs with
      | nil => exact hP s t h0
      | cons b bs =>
        obtain ⟨rfl, hrest⟩ := List.cons_prefix_cons.mp hbs
        exact (ih (step s t b h0 hc)).mpr hcs bs hrest

/-- Two conditions that agree wherever the invariant holds, and of which one keeps it, are met by
the same runs. -/
theorem allSteps_iff_of_invariant {I : σ → Prop} {c d : σ → α → Prop}
    (h : ∀ s a, I s → (c s a ↔ d s a)) (step : ∀ s a, I s → d s a → I (apply s a)) {s : σ}
    {as : List α} (h0 : I s) : AllSteps apply c s as ↔ AllSteps apply d s as := by
  induction as generalizing s with
  | nil => exact Iff.rfl
  | cons a as ih =>
    constructor
    · rintro ⟨hc, hcs⟩
      have hd := (h s a h0).mp hc
      exact ⟨hd, (ih (step s a h0 hd)).mp hcs⟩
    · rintro ⟨hd, hds⟩
      exact ⟨(h s a h0).mpr hd, (ih (step s a h0 hd)).mpr hds⟩

/-- **The trap rule.** Where a step that does not meet the condition leads into a trap, a run whose
steps do not all meet it ends in the trap. -/
theorem allSteps_or_trapped {I J : σ → Prop} {cond : σ → α → Prop}
    (step : ∀ s a, I s → I (apply s a)) (enter : ∀ s a, I s → ¬ cond s a → J (apply s a))
    (stay : ∀ s a, I s → J s → J (apply s a)) {s : σ} {as : List α} (h0 : I s) :
    AllSteps apply cond s as ∨ J (run apply s as) := by
  induction as generalizing s with
  | nil => exact Or.inl trivial
  | cons a as ih =>
    have hI := step s a h0
    by_cases hc : cond s a
    · exact (ih hI).imp_left fun h => ⟨hc, h⟩
    · have htrapped : I (run apply (apply s a) as) ∧ J (run apply (apply s a) as) :=
        invariant_of_step (I := fun s => I s ∧ J s)
          (fun s a h => ⟨step s a h.1, stay s a h.1 h.2⟩) ⟨hI, enter s a h0 hc⟩
      exact Or.inr htrapped.2

/-- **The invariant rule for histories**: what is true of the empty run and stays true of a run when
it is continued by a step that meets the condition is true of every run of such steps. -/
theorem history {Q : List α → Prop} {cond : σ → α → Prop} {s : σ} (nil : Q [])
    (snoc : ∀ as a, Q as → cond (run apply s as) a → Q (as ++ [a])) {as : List α}
    (hs : AllSteps apply cond s as) : Q as := by
  suffices h : ∀ as bs, Q bs → AllSteps apply cond (run apply s bs) as → Q (bs ++ as) from
    h as [] nil hs
  intro as
  induction as with
  | nil => exact fun bs h _ => by rwa [List.append_nil]
  | cons a as ih =>
    intro bs h has
    rw [List.append_cons]
    refine ih (bs ++ [a]) (snoc bs a h has.1) ?_
    rw [run_append]
    exact has.2

/-! ## Traces -/

/-- What the steps of a run put out, one after the other. A step may put out nothing, or several
things, and what it puts out may depend on the state it is taken from. -/
def trace (apply : σ → α → σ) {β : Type*} (out : σ → α → List β) : σ → List α → List β
  | _, [] => []
  | s, a :: as => out s a ++ trace apply out (apply s a) as

theorem trace_append {β : Type*} {out : σ → α → List β} (s : σ) (as bs : List α) :
    trace apply out s (as ++ bs) =
      trace apply out s as ++ trace apply out (run apply s as) bs := by
  induction as generalizing s with
  | nil => rfl
  | cons a as ih => rw [List.cons_append, trace, trace, ih, List.append_assoc, run_cons]

theorem trace_snoc {β : Type*} {out : σ → α → List β} (s : σ) (as : List α) (a : α) :
    trace apply out s (as ++ [a]) = trace apply out s as ++ out (run apply s as) a := by
  rw [trace_append, trace, trace, List.append_nil]

/-- Steps of which none puts anything out. -/
theorem trace_eq_nil {β : Type*} {out : σ → α → List β} {c : α → Prop}
    (h : ∀ s a, c a → out s a = []) {s : σ} {as : List α} (has : ∀ a ∈ as, c a) :
    trace apply out s as = [] := by
  induction as generalizing s with
  | nil => rfl
  | cons a as ih =>
    rw [trace, h s a (has a List.mem_cons_self), ih fun b hb => has b (List.mem_cons_of_mem _ hb)]
    rfl

/-- **The invariant rule for a run with two traces**: what is kept when a step puts out what it does
holds of what a whole run has put out. -/
theorem trace_induction {β γ : Type*} {out : σ → α → List β} {out' : σ → α → List γ}
    {I : σ → List β → List γ → Prop} (cond : σ → α → Prop)
    (step : ∀ s a l l', I s l l' → cond s a → I (apply s a) (l ++ out s a) (l' ++ out' s a))
    {s : σ} {as : List α} (h0 : I s [] []) (hs : AllSteps apply cond s as) :
    I (run apply s as) (trace apply out s as) (trace apply out' s as) := by
  suffices h : ∀ as s l l', I s l l' → AllSteps apply cond s as →
      I (run apply s as) (l ++ trace apply out s as) (l' ++ trace apply out' s as) from
    h as s [] [] h0 hs
  intro as
  induction as with
  | nil =>
    intro s l l' h _
    simpa only [trace, List.append_nil, run_nil] using h
  | cons a as ih =>
    intro s l l' h hs
    rw [trace, trace, ← List.append_assoc, ← List.append_assoc]
    exact ih _ _ _ (step s a l l' h hs.1) hs.2

/-- The same for one trace. -/
theorem trace_invariant {β : Type*} {out : σ → α → List β} {I : σ → List β → Prop}
    (step : ∀ s a l, I s l → I (apply s a) (l ++ out s a)) {s : σ} (h0 : I s []) (as : List α) :
    I (run apply s as) (trace apply out s as) :=
  @trace_induction σ α apply β β out out (fun s l _ => I s l) (fun _ _ => True)
    (fun s a l _ h _ => step s a l h) s as h0 (.of_forall fun _ _ => trivial)

end Runs
