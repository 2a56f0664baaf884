import ReactiveGraph.Lib.FinMap
import Mathlib.Algebra.BigOperators.Group.Finset.Basic
import Mathlib.Data.Finset.SDiff
import Mathlib.Algebra.BigOperators.Ring.Nat

/-!
# Reference counts with a cascade

A table of cells, each with a count and a list of links to other cells. Releasing a key takes one
from its count; a cell whose count reaches zero leaves the table and its links are released in
turn, in order, before whatever was to be released next. A key that is not in the table is
released without effect — also when it was in the table when the request was made.

`release` is that process with its stack made explicit. Three facts are enough to reason about
it without ever looking at the order of events again:

* `release_accounting` — a cell that survives has lost exactly one for each request naming it and
  one for each link to it in a cell that did not survive;
* `release_survives` — a set of keys survives whole when each of its cells counts more than the
  requests for it and the links to it from outside the set can take;
* `notMem_release` — a cell with no more counts than requests does not survive.

Together they say which cells survive, those of a safe set (`mem_release_iff`), and that the order
in which keys are released makes no difference (`release_perm`).

The counts are not assumed to be right: nothing here says that a cell's count is the number of
its owners, only what the process does with the number it finds.
-/

/-- Cells that carry a count and links. -/
class Counted (κ : outParam Type*) (C : Type*) where
  count : C → ℕ
  links : C → List κ
  /-- The cell with another count. -/
  withCount : C → ℕ → C
  count_withCount : ∀ c n, count (withCount c n) = n
  links_withCount : ∀ c n, links (withCount c n) = links c
  withCount_withCount : ∀ c n n', withCount (withCount c n) n' = withCount c n'
  withCount_count : ∀ c, withCount c (count c) = c

namespace RefCount

open Counted

attribute [simp] count_withCount links_withCount withCount_withCount withCount_count

variable {κ C : Type*} [DecidableEq κ] [Counted κ C]

/-- Release the keys on the stack, head first; a cell that leaves puts its links on the stack. It
ends because a key is used up by each step that does not remove a cell, and cells do not come
back. -/
def release : List κ → FinMap κ C → FinMap κ C
  | [], m => m
  | k :: ks, m =>
    match _h : m.get k with
    | none => release ks m
    | some c =>
      if 0 < count c - 1 then release ks (m.insert k (withCount c (count c - 1)))
      else release (links c ++ ks) (m.remove k)
termination_by ks m => (m.keys.card, ks.length)
decreasing_by
  · exact Prod.Lex.right _ (by simp)
  · rw [FinMap.keys_insert_of_mem _ (FinMap.mem_keys_of_get _h)]
    exact Prod.Lex.right _ (by simp)
  · exact Prod.Lex.left _ _ (FinMap.card_keys_remove_lt (FinMap.mem_keys_of_get _h))

@[simp] theorem release_nil (m : FinMap κ C) : release [] m = m := by rw [release]

theorem release_of_none {k : κ} {ks : List κ} {m : FinMap κ C} (h : m.get k = none) :
    release (k :: ks) m = release ks m := by
  rw [release]
  split
  · rfl
  · next c hc => rw [h] at hc; exact absurd hc (by simp)

theorem release_of_some {k : κ} {ks : List κ} {m : FinMap κ C} {c : C} (h : m.get k = some c) :
    release (k :: ks) m = if 0 < count c - 1
      then release ks (m.insert k (withCount c (count c - 1)))
      else release (links c ++ ks) (m.remove k) := by
  rw [release]
  split
  · next hc => rw [h] at hc; exact absurd hc (by simp)
  · next c' hc =>
    rw [h, Option.some.injEq] at hc
    subst hc
    rfl

theorem release_append (as bs : List κ) (m : FinMap κ C) :
    release (as ++ bs) m = release bs (release as m) := by
  fun_induction release as m with
  | case1 m => rfl
  | case2 k ks m hk ih => rw [List.cons_append, release_of_none hk, ih]
  | case3 k ks m c hk hc ih => rw [List.cons_append, release_of_some hk, if_pos hc, ih]
  | case4 k ks m c hk hc ih =>
    rw [List.cons_append, release_of_some hk, if_neg hc, ← List.append_assoc, ih]

/-- The links of the cell at `k`, none when there is no cell. -/
def linksOf (m : FinMap κ C) (k : κ) : List κ := ((m.get k).map links).getD []

theorem linksOf_of_get {m : FinMap κ C} {k : κ} {c : C} (h : m.get k = some c) :
    linksOf m k = links c := by simp [linksOf, h]

theorem linksOf_insert_withCount {m : FinMap κ C} {k : κ} {c : C} (h : m.get k = some c) (n : ℕ)
    (x : κ) : linksOf (m.insert k (withCount c n)) x = linksOf m x := by
  unfold linksOf
  rw [FinMap.get_insert]
  by_cases hx : x = k
  · subst hx; simp [h]
  · rw [if_neg hx]

theorem linksOf_remove_of_ne {m : FinMap κ C} {k x : κ} (h : x ≠ k) :
    linksOf (m.remove k) x = linksOf m x := by
  unfold linksOf
  rw [FinMap.get_remove_of_ne m h]

/-! ## What is left afterwards -/

/-- Whatever is left was there before, and only its count may have changed. -/
theorem get_release {ks : List κ} {m : FinMap κ C} {u : κ} {c' : C}
    (h : (release ks m).get u = some c') :
    ∃ c, m.get u = some c ∧ c' = withCount c (count c') ∧ count c' ≤ count c := by
  fun_induction release ks m with
  | case1 m => exact ⟨c', h, by simp, le_refl _⟩
  | case2 k ks m hk ih => exact ih h
  | case3 k ks m c hk hc ih =>
    obtain ⟨d, hd, heq, hle⟩ := ih h
    obtain ⟨rfl, rfl⟩ | ⟨-, hd⟩ := FinMap.get_insert_eq_some.mp hd
    · rw [withCount_withCount] at heq
      rw [count_withCount] at hle
      exact ⟨c, hk, heq, by omega⟩
    · exact ⟨d, hd, heq, hle⟩
  | case4 k ks m c hk hc ih =>
    obtain ⟨d, hd, heq, hle⟩ := ih h
    exact ⟨d, (FinMap.get_remove_eq_some.mp hd).2, heq, hle⟩

theorem keys_release_subset (ks : List κ) (m : FinMap κ C) : (release ks m).keys ⊆ m.keys := by
  intro u hu
  obtain ⟨c', hc'⟩ := FinMap.exists_get_of_mem_keys hu
  obtain ⟨c, hc, -⟩ := get_release hc'
  exact FinMap.mem_keys_of_get hc

/-- Every cell counts at least one owner. A cell with a count of zero would go with the first
request, like one with a count of one; the accounts would be off by one for it. -/
def Positive (m : FinMap κ C) : Prop := ∀ u c, m.get u = some c → 1 ≤ count c

theorem Positive.insert_withCount {m : FinMap κ C} (h : Positive m) {k : κ} {c : C} {n : ℕ}
    (hn : 1 ≤ n) : Positive (m.insert k (withCount c n)) := by
  intro u d hd
  obtain ⟨-, rfl⟩ | ⟨-, hd⟩ := FinMap.get_insert_eq_some.mp hd
  · rwa [count_withCount]
  · exact h u d hd

theorem Positive.remove {m : FinMap κ C} (h : Positive m) (k : κ) : Positive (m.remove k) :=
  fun u d hd => h u d (FinMap.get_remove_eq_some.mp hd).2

theorem Positive.release {ks : List κ} {m : FinMap κ C} (h : Positive m) :
    Positive (release ks m) := by
  fun_induction RefCount.release ks m with
  | case1 m => exact h
  | case2 k ks m hk ih => exact ih h
  | case3 k ks m c hk hc ih => exact ih (h.insert_withCount hc)
  | case4 k ks m c hk hc ih => exact ih (h.remove k)

/-! ## The accounts -/

/-- A removed cell does not come back. -/
theorem notMem_release_remove {k : κ} {ks : List κ} {m : FinMap κ C} :
    k ∉ (release ks (m.remove k)).keys := by
  intro h
  have := keys_release_subset _ _ h
  rw [FinMap.keys_remove] at this
  exact Finset.notMem_erase k _ this

/-- The cells lost after a removal are the removed one and those lost afterwards. -/
theorem sum_sdiff_remove {k : κ} {ks : List κ} {m : FinMap κ C} (hk : k ∈ m.keys) (u : κ) :
    ∑ x ∈ m.keys \ (release ks (m.remove k)).keys, (linksOf m x).count u
      = (linksOf m k).count u
        + ∑ x ∈ (m.remove k).keys \ (release ks (m.remove k)).keys,
            (linksOf (m.remove k) x).count u := by
  have hset : m.keys \ (release ks (m.remove k)).keys
      = insert k ((m.remove k).keys \ (release ks (m.remove k)).keys) := by
    ext x
    rw [FinMap.keys_remove, Finset.mem_insert, Finset.mem_sdiff, Finset.mem_sdiff,
      Finset.mem_erase]
    by_cases hx : x = k
    · subst hx; simp [hk, notMem_release_remove]
    · simp [hx]
  have hnot : k ∉ (m.remove k).keys \ (release ks (m.remove k)).keys := by
    rw [FinMap.keys_remove]
    simp
  rw [hset, Finset.sum_insert hnot]
  congr 1
  refine Finset.sum_congr rfl fun x hx => ?_
  rw [linksOf_remove_of_ne]
  rintro rfl
  exact hnot hx

/-- **Accounting.** A cell that survives has lost one for each request naming it and one for each
link to it in a cell that did not survive. The order in which this happened does not appear, and
neither do the steps at which a cell was requested that had gone already. -/
theorem release_accounting {ks : List κ} {m : FinMap κ C} {u : κ} {c c' : C}
    (hc : m.get u = some c) (hc' : (release ks m).get u = some c') :
    count c = count c' + ks.count u
      + ∑ x ∈ m.keys \ (release ks m).keys, (linksOf m x).count u := by
  fun_induction release ks m generalizing c with
  | case1 m =>
    rw [hc, Option.some.injEq] at hc'
    simp [hc']
  | case2 k ks m hk ih =>
    have huk : k ≠ u := by rintro rfl; rw [hk] at hc; exact absurd hc (by simp)
    rw [List.count_cons_of_ne huk]
    exact ih hc hc'
  | case3 k ks m d hk hd ih =>
    simp only [FinMap.keys_insert_of_mem _ (FinMap.mem_keys_of_get hk),
      linksOf_insert_withCount hk (count d - 1)] at ih
    by_cases huk : u = k
    · subst huk
      rw [hk, Option.some.injEq] at hc
      subst hc
      have := ih (FinMap.get_insert_self _ _ _) hc'
      rw [count_withCount] at this
      rw [List.count_cons_self]
      omega
    · rw [List.count_cons_of_ne (Ne.symm huk)]
      exact ih (by rw [FinMap.get_insert_of_ne _ _ huk, hc]) hc'
  | case4 k ks m d hk hd ih =>
    -- The cell that goes requests a release along each of its links: they stand in `ks` from
    -- here on, and in the sum for the cells that did not survive.
    have huk : u ≠ k := by
      rintro rfl
      exact notMem_release_remove (FinMap.mem_keys_of_get hc')
    have := ih (by rw [FinMap.get_remove_of_ne _ huk, hc]) hc'
    rw [List.count_append] at this
    rw [List.count_cons_of_ne (Ne.symm huk), sum_sdiff_remove (FinMap.mem_keys_of_get hk),
      linksOf_of_get hk]
    omega

/-- A cell that survives has lost one for each request naming it, at least. -/
theorem count_release_le {ks : List κ} {m : FinMap κ C} {u : κ} {c c' : C}
    (hc : m.get u = some c) (hc' : (release ks m).get u = some c') :
    count c' + ks.count u ≤ count c := by
  have hacc := release_accounting hc hc'
  omega

/-- A cell named at least as often as it counts does not survive. -/
theorem notMem_release {ks : List κ} {m : FinMap κ C} (hpos : Positive m) {u : κ} {c : C}
    (hc : m.get u = some c) (hle : count c ≤ ks.count u) : u ∉ (release ks m).keys := by
  intro hu
  obtain ⟨c', hc'⟩ := FinMap.exists_get_of_mem_keys hu
  have hacc := release_accounting hc hc'
  have hpos' : Positive (release ks m) := hpos.release
  have := hpos' u c' hc'
  omega

/-! ## Sets that survive whole -/

/-- What a set `K` of keys has to fear from the requests `ks`: for each of its cells the requests
naming it and the links to it from cells outside `K`, all of which may go. `K` is safe when each
of its cells counts more than that. -/
def Safe (K : κ → Prop) [DecidablePred K] (ks : List κ) (m : FinMap κ C) : Prop :=
  ∀ u, K u → ∀ c, m.get u = some c →
    ks.count u + ∑ x ∈ m.keys with ¬ K x, (linksOf m x).count u < count c

instance Safe.decidableList (l ks : List κ) (m : FinMap κ C) :
    Decidable (Safe (· ∈ l) ks m) :=
  inferInstanceAs (Decidable (∀ u ∈ l, ∀ c ∈ m.get u,
    ks.count u + ∑ x ∈ m.keys with x ∉ l, (linksOf m x).count u < count c))

instance Safe.decidableFinset (K : Finset κ) (ks : List κ) (m : FinMap κ C) :
    Decidable (Safe (· ∈ K) ks m) :=
  inferInstanceAs (Decidable (∀ u ∈ K, ∀ c ∈ m.get u,
    ks.count u + ∑ x ∈ m.keys with x ∉ K, (linksOf m x).count u < count c))

variable {K : κ → Prop} [DecidablePred K]

/-- Removing a cell outside `K` moves its links from the table to the stack, which is the same
to every cell of `K`. -/
theorem Safe.remove {k : κ} {ks : List κ} {m : FinMap κ C} {d : C} (h : Safe K (k :: ks) m)
    (hk : m.get k = some d) (hK : ¬ K k) : Safe K (links d ++ ks) (m.remove k) := by
  intro u hu c hc
  have huk : u ≠ k := fun heq => hK (heq ▸ hu)
  rw [FinMap.get_remove_of_ne _ huk] at hc
  have hsafe := h u hu c hc
  -- the sum over the cells outside `K` has `k` as a summand, and its links are those moved
  have hset : {x ∈ m.keys | ¬ K x} = insert k {x ∈ (m.remove k).keys | ¬ K x} := by
    ext x
    rw [FinMap.keys_remove, Finset.mem_insert, Finset.mem_filter, Finset.mem_filter,
      Finset.mem_erase]
    by_cases hx : x = k
    · subst hx; simp [FinMap.mem_keys_of_get hk, hK]
    · simp [hx]
  have hnot : k ∉ {x ∈ (m.remove k).keys | ¬ K x} := by
    rw [FinMap.keys_remove]
    simp
  rw [hset, Finset.sum_insert hnot, linksOf_of_get hk, List.count_cons_of_ne (Ne.symm huk)]
    at hsafe
  have hsum : ∑ x ∈ (m.remove k).keys with ¬ K x, (linksOf (m.remove k) x).count u
      = ∑ x ∈ (m.remove k).keys with ¬ K x, (linksOf m x).count u := by
    refine Finset.sum_congr rfl fun x hx => ?_
    rw [linksOf_remove_of_ne]
    rintro rfl
    exact hnot hx
  rw [hsum, List.count_append]
  omega

/-- **A safe set survives whole.** -/
theorem release_survives {ks : List κ} {m : FinMap κ C} (h : Safe K ks m) {u : κ} (hu : K u)
    (hm : u ∈ m.keys) : u ∈ (release ks m).keys := by
  fun_induction release ks m with
  | case1 m => exact hm
  | case2 k ks m hk ih =>
    refine ih (fun v hv c hc => ?_) hm
    have := h v hv c hc
    have hle : ks.count v ≤ (k :: ks).count v := List.count_le_count_cons
    omega
  | case3 k ks m d hk hd ih =>
    have hkeys := FinMap.keys_insert_of_mem (withCount d (count d - 1)) (FinMap.mem_keys_of_get hk)
    refine ih (fun v hv c hc => ?_) (by rwa [hkeys])
    simp only [hkeys, linksOf_insert_withCount hk (count d - 1)]
    obtain ⟨rfl, rfl⟩ | ⟨hvk, hc⟩ := FinMap.get_insert_eq_some.mp hc
    · have := h v hv d hk
      rw [List.count_cons_self] at this
      rw [count_withCount]
      omega
    · have := h v hv c hc
      rwa [List.count_cons_of_ne (Ne.symm hvk)] at this
  | case4 k ks m d hk hd ih =>
    -- a cell of `K` is never at its last count when a request for it is on the stack
    have hkK : ¬ K k := by
      intro hK
      have := h k hK d hk
      rw [List.count_cons_self] at this
      omega
    refine ih (h.remove hk hkK) ?_
    rw [FinMap.keys_remove]
    exact Finset.mem_erase_of_ne_of_mem (fun heq => hkK (heq ▸ hu)) hm

/-- The cells that survive are a safe set. -/
theorem safe_release {ks : List κ} {m : FinMap κ C} (hpos : Positive m) :
    Safe (· ∈ (release ks m).keys) ks m := by
  intro u hu c hc
  obtain ⟨c', hc'⟩ := FinMap.exists_get_of_mem_keys hu
  have hacc := release_accounting hc hc'
  have hone := hpos.release u c' hc'
  have hset : {x ∈ m.keys | x ∉ (release ks m).keys} = m.keys \ (release ks m).keys := by
    ext x
    rw [Finset.mem_filter, Finset.mem_sdiff]
  rw [hset]
  omega

/-- A key is held when it lies in a safe set. -/
def Held (ks : List κ) (m : FinMap κ C) (u : κ) : Prop := ∃ K : Finset κ, u ∈ K ∧ Safe (· ∈ K) ks m

/-- **The cells that survive are those that are held.** A safe set survives (`release_survives`),
and what survives is itself a safe set (`safe_release`): so it is the largest one. -/
theorem mem_release_iff {ks : List κ} {m : FinMap κ C} (hpos : Positive m) {u : κ} :
    u ∈ (release ks m).keys ↔ u ∈ m.keys ∧ Held ks m u := by
  constructor
  · exact fun hu => ⟨keys_release_subset ks m hu, _, hu, safe_release hpos⟩
  · rintro ⟨hm, K, hu, hsafe⟩
    exact release_survives hsafe hu hm

/-- Only how often a key is named matters, not where. -/
theorem Held.perm_iff {ks ks' : List κ} (h : ks.Perm ks') {m : FinMap κ C} {u : κ} :
    Held ks m u ↔ Held ks' m u := by
  simp only [Held, Safe, h.count_eq]

theorem Held.reverse_iff {ks : List κ} {m : FinMap κ C} {u : κ} :
    Held ks.reverse m u ↔ Held ks m u := perm_iff (List.reverse_perm ks)

/-- **The order of the requests does not matter.** Which cells survive is a matter of how often keys
are requested, and so, by the accounts, is what they count in the end. -/
theorem release_perm {ks ks' : List κ} (h : ks.Perm ks') {m : FinMap κ C} (hpos : Positive m) :
    release ks m = release ks' m := by
  have hkeys : (release ks m).keys = (release ks' m).keys := by
    ext u
    rw [mem_release_iff hpos, mem_release_iff hpos, Held.perm_iff h]
  -- the same cells survive; the accounts give each the same count
  refine FinMap.ext fun u => ?_
  by_cases hu : u ∈ (release ks m).keys
  · obtain ⟨c₁, hc₁⟩ := FinMap.exists_get_of_mem_keys hu
    obtain ⟨c₂, hc₂⟩ := FinMap.exists_get_of_mem_keys (hkeys ▸ hu)
    obtain ⟨c, hc, heq₁, -⟩ := get_release hc₁
    obtain ⟨c', hc', heq₂, -⟩ := get_release hc₂
    obtain rfl := Option.some.inj (hc.symm.trans hc')
    have hacc₁ := release_accounting hc hc₁
    have hacc₂ := release_accounting hc hc₂
    rw [← hkeys, ← h.count_eq u] at hacc₂
    have hcount : count c₁ = count c₂ := by omega
    rw [hc₁, hc₂, heq₁, heq₂, hcount]
  · rw [FinMap.notMem_keys.mp hu, FinMap.notMem_keys.mp (hkeys ▸ hu)]

/-! ## Requests for one key -/

/-- The table with the count at `k` lowered by `n`, and without the cell if that is all it counts.
It is what `n` requests for one key come to when the cell has no links to follow. -/
def take (n : ℕ) (k : κ) (m : FinMap κ C) : FinMap κ C :=
  match m.get k with
  | none => m
  | some c => if n < count c then m.insert k (withCount c (count c - n)) else m.remove k

theorem get_take (n : ℕ) (k : κ) (m : FinMap κ C) (u : κ) : (take n k m).get u =
    if u = k then (m.get k).bind fun c =>
      if n < count c then some (withCount c (count c - n)) else none
    else m.get u := by
  unfold take
  split
  · next h => by_cases hu : u = k <;> simp [hu, h]
  · next c h =>
    split
    · next hn => simp [FinMap.get_insert, h, hn]
    · next hn => simp [FinMap.get_remove, h, hn]

theorem Positive.take {m : FinMap κ C} (h : Positive m) (n : ℕ) (k : κ) : Positive (take n k m) := by
  unfold RefCount.take
  split
  · exact h
  · split
    · exact h.insert_withCount (by omega)
    · exact h.remove k

/-- A key that is not in the table is requested without effect. -/
theorem release_of_absent {k : κ} {m : FinMap κ C} (h : m.get k = none) (n : ℕ) (as : List κ) :
    release (as ++ List.replicate n k) m = release as m := by
  have hnone : (release as m).get k = none :=
    FinMap.notMem_keys.mp fun hk => FinMap.notMem_keys.mpr h (keys_release_subset as m hk)
  rw [release_append]
  induction n with
  | zero => exact release_nil _
  | succ n ih => rw [List.replicate_succ, release_of_none hnone, ih]

/-- Fewer requests than a cell counts lower the count, and nothing else happens: the cell stays, so
no link is followed. -/
theorem release_replicate_of_lt {k : κ} {m : FinMap κ C} {c : C} (h : m.get k = some c) {n : ℕ}
    (hn : n < count c) : release (List.replicate n k) m = take n k m := by
  induction n generalizing m c with
  | zero =>
    refine FinMap.ext fun u => ?_
    rw [get_take, h, Option.bind_some, if_pos hn, Nat.sub_zero, withCount_count,
      List.replicate_zero, release_nil]
    split
    · next hu => rw [hu, h]
    · rfl
  | succ n ih =>
    -- the cell with one less still counts more than what is left to take
    have hstep : n < count (withCount c (count c - 1)) := by
      rw [count_withCount]
      omega
    rw [List.replicate_succ, release_of_some h, if_pos (by omega),
      ih (FinMap.get_insert_self _ _ _) hstep]
    refine FinMap.ext fun u => ?_
    rw [get_take, get_take, FinMap.get_insert_self, h, Option.bind_some, Option.bind_some,
      if_pos hstep, if_pos hn, count_withCount, withCount_withCount, Nat.sub_sub, Nat.add_comm 1 n]
    split
    · rfl
    · next hu => exact FinMap.get_insert_of_ne _ _ hu

/-- As many as it counts, or more, take it away and release what it links to. The requests that are
left over find no cell and are without effect. -/
theorem release_replicate_of_le {k : κ} {m : FinMap κ C} {c : C} (h : m.get k = some c) {n : ℕ}
    (hpos : 0 < count c) (hn : count c ≤ n) :
    release (List.replicate n k) m = release (links c) (m.remove k) := by
  induction n generalizing m c with
  | zero => omega
  | succ n ih =>
    rw [List.replicate_succ, release_of_some h]
    split
    · have hstep : count (withCount c (count c - 1)) = count c - 1 := count_withCount _ _
      rw [ih (FinMap.get_insert_self _ _ _) (by omega) (by omega), links_withCount]
      refine congrArg (release (links c)) (FinMap.ext fun u => ?_)
      rw [FinMap.get_remove, FinMap.get_remove]
      split
      · rfl
      · next hu => exact FinMap.get_insert_of_ne _ _ hu
    · exact release_of_absent (FinMap.get_remove_self _ _) n _

/-- Two cells go, one after the other, each of which releases the next, which is requested as well. -/
theorem release_chain {a b c : κ} {ks : List κ} {m m₁ m₂ : FinMap κ C}
    (h₁ : release [a] m = release [b] m₁) (h₂ : release [b, b] m₁ = release [c] m₂) :
    release (a :: b :: c :: ks) m = release ks (release [c, c] m₂) :=
  calc release (a :: b :: c :: ks) m
    _ = release (b :: c :: ks) (release [a] m) := release_append [a] (b :: c :: ks) m
    _ = release ([b, b] ++ c :: ks) m₁ := by
      rw [h₁, ← release_append]
      rfl
    _ = release ([c, c] ++ ks) m₂ := by
      rw [release_append, h₂, ← release_append]
      rfl
    _ = release ks (release [c, c] m₂) := release_append _ _ _

/-- For a cell without links there is nothing to follow. -/
theorem release_replicate_of_leaf {m : FinMap κ C} (hpos : Positive m) {k : κ}
    (h : linksOf m k = []) (n : ℕ) : release (List.replicate n k) m = take n k m := by
  cases hk : m.get k with
  | none =>
    rw [← List.nil_append (List.replicate n k), release_of_absent hk, release_nil, take, hk]
  | some c =>
    by_cases hn : n < count c
    · exact release_replicate_of_lt hk hn
    · rw [linksOf_of_get hk] at h
      rw [release_replicate_of_le hk (hpos k c hk) (by omega), h, release_nil]
      simp only [take, hk, if_neg hn]

end RefCount
