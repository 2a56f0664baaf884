import Mathlib.Algebra.BigOperators.Group.Finset.Basic
import Mathlib.Algebra.Order.BigOperators.Group.Finset
import Mathlib.Algebra.Ring.Nat

/-!
# What an event is worth

An event of kind `u` sets off other events, at most one of each kind in `E u`, and these set off
fewer kinds in turn. So a cascade ends, and the question is by how much a measure has to fall with
the first event to pay for all the others. An event can be given a worth that pays: for each event
that it sets off directly, a constant and that event's own worth (`sum_worth_le`). The constant is
what one event costs by itself, whatever that is in the machine that has the events.

The worth depends on nothing but how many kinds an event can set off (`due`), and it is generous: a
cascade in which two events set off the same third one is charged for it twice. That does no harm to
a proof that something ends, which only wants a number that falls.

Several events that happen at once, and between them set off each kind at most once, are worth no
less than what they set off (`sum_le_of_covered`). Nothing is assumed about which of them sets off
which: it is enough that each event that is set off is in reach of one of them.
-/

namespace Cascade

variable {κ : Type*}

/-- What is due for events of `n` kinds, each of which sets off fewer: the constant for each, and as
much again as events of `n - 1` kinds can set off. -/
def due (c : ℕ) : ℕ → ℕ
  | 0 => 0
  | n + 1 => (n + 1) * (c + due c n)

theorem due_le_succ (c n : ℕ) : due c n ≤ due c (n + 1) := by
  calc due c n ≤ c + due c n := Nat.le_add_left _ _
    _ ≤ (n + 1) * (c + due c n) := Nat.le_mul_of_pos_left _ (Nat.succ_pos n)

theorem due_mono (c : ℕ) : Monotone (due c) := monotone_nat_of_le_succ (due_le_succ c)

/-- The worth of an event: it depends on how many kinds it can set off, and not on which. -/
def worth (E : κ → Finset κ) (c : ℕ) (u : κ) : ℕ := due c (E u).card

/-- **An event is worth what it sets off.** Each event that it sets off reaches fewer kinds than it
does itself, and so is worth no more than what is due for one kind less. -/
theorem sum_worth_le {E : κ → Finset κ} {u : κ} (hE : ∀ v ∈ E u, (E v).card < (E u).card)
    (c : ℕ) : ∑ v ∈ E u, (c + worth E c v) ≤ worth E c u := by
  cases hcard : (E u).card with
  | zero => rw [Finset.card_eq_zero.mp hcard, Finset.sum_empty]; exact Nat.zero_le _
  | succ n =>
    -- every kind in reach of `u` is charged as if it reached all but one of them
    have hle : ∀ v ∈ E u, c + worth E c v ≤ c + due c n := fun v hv =>
      Nat.add_le_add_left (due_mono c (Nat.le_of_lt_succ ((hE v hv).trans_eq hcard))) c
    calc ∑ v ∈ E u, (c + worth E c v) ≤ (E u).card • (c + due c n) :=
          Finset.sum_le_card_nsmul _ _ _ hle
      _ = worth E c u := by rw [worth, hcard]; rfl

/-- A list that some sets cover between them comes to no more than the sets do. The induction is
over the sets: what the first one covers is paid for by it, the rest by the others, and an element
that several sets cover is paid for by the first of these. -/
theorem sum_le_of_covered [DecidableEq κ] {E : κ → Finset κ} (f : κ → ℕ) {us l : List κ}
    (hnd : l.Nodup) (hcov : ∀ v ∈ l, ∃ u ∈ us, v ∈ E u) :
    (l.map f).sum ≤ (us.map fun u => ∑ v ∈ E u, f v).sum := by
  induction us generalizing l with
  | nil =>
    have hnil : l = [] := List.eq_nil_iff_forall_not_mem.mpr fun v hv => by
      obtain ⟨u, hu, -⟩ := hcov v hv
      exact List.not_mem_nil hu
    rw [hnil]
    exact le_rfl
  | cons u us ih =>
    -- what the first set covers, and the rest
    have hsplit : (l.map f).sum = ((l.filter (· ∈ E u)).map f).sum +
        ((l.filter (· ∉ E u)).map f).sum := by
      rw [← List.sum_append, ← List.map_append]
      refine (List.Perm.map f ?_).sum_eq
      simpa using (List.filter_append_perm (fun v => decide (v ∈ E u)) l).symm
    have hfirst : ((l.filter (· ∈ E u)).map f).sum ≤ ∑ v ∈ E u, f v := by
      rw [← List.sum_toFinset f (hnd.filter _)]
      refine Finset.sum_le_sum_of_subset fun v hv => ?_
      exact of_decide_eq_true (List.mem_filter.mp (List.mem_toFinset.mp hv)).2
    have hrest : ((l.filter (· ∉ E u)).map f).sum ≤ (us.map fun u => ∑ v ∈ E u, f v).sum := by
      refine ih (hnd.filter _) fun v hv => ?_
      obtain ⟨hv, hnot⟩ := List.mem_filter.mp hv
      obtain ⟨u', hu', hmem⟩ := hcov v hv
      rcases List.mem_cons.mp hu' with rfl | hu'
      · exact absurd hmem (of_decide_eq_true hnot)
      · exact ⟨u', hu', hmem⟩
    rw [hsplit, List.map_cons, List.sum_cons]
    exact Nat.add_le_add hfirst hrest

end Cascade
