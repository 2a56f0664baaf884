import ReactiveGraph.Lib.Dag

/-!
# Evaluating nodes in dependency order

A state assigns a value to every node (`get`), and `step k` recomputes node `k`: it changes no
other node (`Framed`), and the value it gives `k` depends only on the values of `k`'s predecessors
and of `k` itself (`Local`). Evaluating a list of nodes is folding `step` over it.

For a list without duplicates in which every node comes after its predecessors in the list, the
order does not matter: a node is evaluated when its predecessors already have the values they end
with (`reads_final`), so any two such orders of the same nodes end alike (`evalAll_congr`). And
nodes none of which is a predecessor of another may as well be evaluated all at once, against the
state before any of them (`get_evalAll_of_independent`): that is what a parallel scheduler does.

Where the value a step gives is known as a function (`Given`), the state an evaluation ends in can be
described without evaluating anything: it solves one equation for each node (`solves_evalAll`), and
nothing else does (`Solves.unique`).
-/

namespace Dataflow

open Dag

variable {κ S W : Type*} (get : S → κ → W) (pred : κ → List κ) (step : κ → S → S)

/-- A step changes the value of no other node. -/
def Framed : Prop := ∀ k s k', k' ≠ k → get (step k s) k' = get s k'

/-- A step recomputes one node from its predecessors and itself: it leaves the other nodes alone,
and two states that agree on what it looks at make no difference to what it gives. -/
structure Local : Prop where
  frame : ∀ k s k', k' ≠ k → get (step k s) k' = get s k'
  congr : ∀ k s s', (∀ u ∈ pred k, get s u = get s' u) → get s k = get s' k →
    get (step k s) k = get (step k s') k

/-- Evaluate the nodes of a list in its order. -/
def evalAll (l : List κ) (s : S) : S := l.foldl (fun s k => step k s) s

@[simp] theorem evalAll_nil (s : S) : evalAll step [] s = s := rfl

@[simp] theorem evalAll_cons (k : κ) (l : List κ) (s : S) :
    evalAll step (k :: l) s = evalAll step l (step k s) := rfl

theorem evalAll_append (a b : List κ) (s : S) :
    evalAll step (a ++ b) s = evalAll step b (evalAll step a s) := List.foldl_append

/-- Steps that agree on the nodes of a list evaluate it alike. -/
theorem evalAll_congr_step {step step' : κ → S → S} {l : List κ}
    (h : ∀ k ∈ l, ∀ s, step k s = step' k s) (s : S) : evalAll step l s = evalAll step' l s := by
  induction l generalizing s with
  | nil => rfl
  | cons k l ih =>
    rw [evalAll_cons, evalAll_cons, h k List.mem_cons_self,
      ih fun k hk => h k (List.mem_cons_of_mem _ hk)]

variable {get pred step}

/-- Nodes that are not evaluated keep their value. -/
theorem get_evalAll_of_notMem (h : Framed get step) {l : List κ} {s : S} {k : κ} (hk : k ∉ l) :
    get (evalAll step l s) k = get s k := by
  induction l generalizing s with
  | nil => rfl
  | cons x l ih =>
    obtain ⟨hx, hl⟩ := not_or.mp (mt List.mem_cons.mpr hk)
    rw [evalAll_cons, ih hl, h x s k hx]

/-- In a list without duplicates a node's value is settled once it has been evaluated. -/
theorem get_evalAll_append_left (h : Framed get step) {a b : List κ} (hnd : (a ++ b).Nodup) {s : S}
    {k : κ} (hk : k ∈ a) : get (evalAll step (a ++ b) s) k = get (evalAll step a s) k := by
  rw [evalAll_append]
  exact get_evalAll_of_notMem h fun hb => (List.nodup_append.mp hnd).2.2 k hk k hb rfl

/-- **A node is evaluated when its predecessors have the values they end with.** Those that are in
the list come before it and are not evaluated again, those that are not are never evaluated; either
way what the node reads is final. -/
theorem reads_final (h : Framed get step) {a b : List κ} {k : κ} (hnd : (a ++ k :: b).Nodup)
    (ho : Ordered pred (· ∈ a ++ k :: b) (a ++ k :: b)) (s : S) {u : κ} (hu : u ∈ pred k) :
    get (evalAll step a s) u = get (evalAll step (a ++ k :: b) s) u := by
  by_cases hmem : u ∈ a ++ k :: b
  · have hpre : a ++ [k] <+: a ++ k :: b := ⟨b, by simp⟩
    exact (get_evalAll_append_left h hnd (ho a k hpre u hu hmem)).symm
  · rw [get_evalAll_of_notMem h hmem,
      get_evalAll_of_notMem h fun ha => hmem (List.mem_append_left _ ha)]

/-- What a node ends with: its step, taken where its predecessors have their final values and it has
still the value it started with. So the end of an evaluation can be described node by node, and the
states on the way drop out. -/
theorem exists_step_eq (h : Framed get step) {l : List κ} (hnd : l.Nodup)
    (ho : Ordered pred (· ∈ l) l) (s : S) {k : κ} (hk : k ∈ l) :
    ∃ a b, l = a ++ k :: b ∧ get (evalAll step l s) k = get (step k (evalAll step a s)) k ∧
      (∀ u ∈ pred k, get (evalAll step a s) u = get (evalAll step l s) u) ∧
      get (evalAll step a s) k = get s k := by
  obtain ⟨a, b, rfl⟩ := List.append_of_mem hk
  have hka : k ∉ a := fun ha => (List.nodup_append.mp hnd).2.2 k ha k List.mem_cons_self rfl
  have hkb : k ∉ b := (List.nodup_cons.mp hnd.of_append_right).1
  refine ⟨a, b, rfl, ?_, fun u hu => reads_final h hnd ho s hu, get_evalAll_of_notMem h hka⟩
  -- nothing after `k` touches it again
  rw [evalAll_append, evalAll_cons, get_evalAll_of_notMem h hkb]

/-- **The rule for two states**: they agree if they agree outside an ordered list, and on each node of
it if they do on its predecessors. -/
theorem agree_of_ordered {l : List κ} (ho : Ordered pred (· ∈ l) l) {s s' : S}
    (hout : ∀ k, k ∉ l → get s k = get s' k)
    (hin : ∀ k ∈ l, (∀ u ∈ pred k, get s u = get s' u) → get s k = get s' k) (k : κ) :
    get s k = get s' k := by
  have hall : ∀ a, a <+: l → ∀ k ∈ a, get s k = get s' k := by
    intro a
    induction a using List.reverseRecOn with
    | nil => simp
    | append_singleton a k ih =>
      intro hpre x hx
      have hpre' : a <+: l := (List.prefix_append a [k]).trans hpre
      rcases List.mem_append.mp hx with hx | hx
      · exact ih hpre' x hx
      · obtain rfl := List.mem_singleton.mp hx
        refine hin x (hpre.subset (by simp)) fun u hu => ?_
        -- a predecessor in the list comes before `x`, one outside it never differed
        by_cases hul : u ∈ l
        · exact ih hpre' u (ho a x hpre u hu hul)
        · exact hout u hul
  by_cases hk : k ∈ l
  · exact hall l List.prefix_rfl k hk
  · exact hout k hk

/-- **Any two dependency orders of the same nodes end alike.** Both ends are solutions of the same
equations, one for each node, and along either order such a solution is determined node by node. -/
theorem evalAll_congr (h : Local get pred step) {l l' : List κ} (hnd : l.Nodup) (hnd' : l'.Nodup)
    (hmem : ∀ k, k ∈ l ↔ k ∈ l') (ho : Ordered pred (· ∈ l) l) (ho' : Ordered pred (· ∈ l') l')
    (s : S) (k : κ) : get (evalAll step l s) k = get (evalAll step l' s) k := by
  refine agree_of_ordered ho (fun k hk => ?_) (fun k hk hpred => ?_) k
  · rw [get_evalAll_of_notMem h.frame hk, get_evalAll_of_notMem h.frame (mt (hmem k).mpr hk)]
  · obtain ⟨b, c, -, hval, hreads, hown⟩ := exists_step_eq h.frame hnd ho s hk
    obtain ⟨b', c', -, hval', hreads', hown'⟩ :=
      exists_step_eq h.frame hnd' ho' s ((hmem k).mp hk)
    rw [hval, hval']
    refine h.congr k _ _ (fun u hu => ?_) (hown.trans hown'.symm)
    rw [hreads u hu, hreads' u hu, hpred u hu]

/-- **Independent nodes can be evaluated at once**: each ends with its step taken in the state
before any of them. Evaluated one after the other they end alike, so it does not matter which of the
two a scheduler does. -/
theorem get_evalAll_of_independent (h : Local get pred step) {l : List κ} (hnd : l.Nodup)
    (hind : ∀ k ∈ l, ∀ u ∈ pred k, u ∉ l) (s : S) {k : κ} (hk : k ∈ l) :
    get (evalAll step l s) k = get (step k s) k := by
  have ho : Ordered pred (· ∈ l) l := fun a v hpre u hu hul =>
    absurd hul (hind v (hpre.subset (by simp)) u hu)
  obtain ⟨a, b, rfl, hval, hreads, hown⟩ := exists_step_eq h.frame hnd ho s hk
  rw [hval]
  refine h.congr k _ _ (fun u hu => ?_) hown
  exact get_evalAll_of_notMem h.frame fun ha => hind k hk u hu (List.mem_append_left _ ha)

/-! ## Equations -/

variable (get pred step) in
/-- What a step gives a node is a function of the values of its predecessors and of its own. The
function is allowed to look at the whole state, as an implementation does; that it only depends on
the predecessors is `congr`. -/
structure Given (value : κ → S → W → W) : Prop where
  frame : ∀ k s k', k' ≠ k → get (step k s) k' = get s k'
  step_eq : ∀ k s, get (step k s) k = value k s (get s k)
  congr : ∀ k s s' w, (∀ u ∈ pred k, get s u = get s' u) → value k s w = value k s' w

variable (get) in
/-- Each node in `D` has in `s` the value it is given there, from the one it has in `s₀`; every
other node has the one it has in `s₀`. The equations speak of one state only: no order, no steps. -/
structure Solves (value : κ → S → W → W) (D : κ → Prop) (s₀ s : S) : Prop where
  evaluated : ∀ k, D k → get s k = value k s (get s₀ k)
  kept : ∀ k, ¬ D k → get s k = get s₀ k

variable {value : κ → S → W → W} {D : κ → Prop} {s₀ : S}

theorem Given.local (h : Given get pred step value) : Local get pred step where
  frame := h.frame
  congr k s s' hpred hown := by rw [h.step_eq, h.step_eq, h.congr k s s' _ hpred, hown]

/-- **Evaluation solves the equations.** -/
theorem Given.solves_evalAll (h : Given get pred step value) {l : List κ} (hnd : l.Nodup)
    (ho : Ordered pred (· ∈ l) l) (hl : ∀ k, D k ↔ k ∈ l) (s₀ : S) :
    Solves get value D s₀ (evalAll step l s₀) where
  evaluated k hk := by
    obtain ⟨a, b, -, hval, hreads, hown⟩ := exists_step_eq h.frame hnd ho s₀ ((hl k).mp hk)
    rw [hval, h.step_eq, hown, h.congr k _ _ _ hreads]
  kept k hk := get_evalAll_of_notMem h.frame (mt (hl k).mpr hk)

/-- **The equations have one solution**: along an order of the nodes, what a node is given is
determined before it. The order is only used for that; which one it is does not appear in the
equations. -/
theorem Solves.unique {l : List κ} {s s' : S} (h : Solves get value D s₀ s)
    (hcongr : ∀ k s s' w, (∀ u ∈ pred k, get s u = get s' u) → value k s w = value k s' w)
    (ho : Ordered pred (· ∈ l) l) (hl : ∀ k, D k ↔ k ∈ l) (h' : Solves get value D s₀ s') (k : κ) :
    get s k = get s' k := by
  refine agree_of_ordered ho (fun k hk => ?_) (fun k hk hpred => ?_) k
  · rw [h.kept k (mt (hl k).mp hk), h'.kept k (mt (hl k).mp hk)]
  · rw [h.evaluated k ((hl k).mpr hk), h'.evaluated k ((hl k).mpr hk), hcongr k s s' _ hpred]

end Dataflow
