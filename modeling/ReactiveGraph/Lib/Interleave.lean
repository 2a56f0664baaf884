import Mathlib.Data.List.Induction

/-!
# Two sequences in one

What comes out of a channel that two parties send into is an interleaving of what each of them has
sent: each keeps its order, and where the one stands against the other is a matter of timing. The
relation is built at the end of the lists, where a channel grows, so a send by either party is one
constructor.

It is a relation, and not a function of a schedule, because nobody knows the schedule: a statement
that there is an interleaving says that nothing is lost, nothing comes twice and neither party's
values overtake one another, and says nothing else. Two consequences are used. What is selected by a
condition is interleaved likewise (`filter`), so the relation can be read for one receiver at a
time. And the last of all is the last of one party (`getLast?_eq`), which is what a receiver that
keeps only the newest value is left with.
-/

variable {α : Type*}

/-- `zs` has what `xs` and `ys` have, each in its order. -/
inductive Interleaved : List α → List α → List α → Prop
  | nil : Interleaved [] [] []
  | left {xs ys zs : List α} (x : α) (h : Interleaved xs ys zs) :
      Interleaved (xs ++ [x]) ys (zs ++ [x])
  | right {xs ys zs : List α} (y : α) (h : Interleaved xs ys zs) :
      Interleaved xs (ys ++ [y]) (zs ++ [y])

namespace Interleaved

variable {xs ys zs : List α}

theorem symm (h : Interleaved xs ys zs) : Interleaved ys xs zs := by
  induction h with
  | nil => exact .nil
  | left x _ ih => exact ih.right x
  | right y _ ih => exact ih.left y

theorem append_left (h : Interleaved xs ys zs) (l : List α) :
    Interleaved (xs ++ l) ys (zs ++ l) := by
  induction l using List.reverseRecOn with
  | nil => simpa only [List.append_nil] using h
  | append_singleton l x ih =>
    rw [← List.append_assoc, ← List.append_assoc]
    exact ih.left x

theorem append_right (h : Interleaved xs ys zs) (l : List α) :
    Interleaved xs (ys ++ l) (zs ++ l) := (h.symm.append_left l).symm

/-- **Selecting goes through**: what is kept of an interleaving is one of what is kept of each. So
what a channel carries for one receiver is an interleaving of what each party has sent to it. -/
theorem filter (p : α → Bool) (h : Interleaved xs ys zs) :
    Interleaved (xs.filter p) (ys.filter p) (zs.filter p) := by
  induction h with
  | nil => exact .nil
  | left x _ ih =>
    rw [List.filter_append, List.filter_append]
    exact ih.append_left _
  | right y _ ih =>
    rw [List.filter_append, List.filter_append]
    exact ih.append_right _

/-- The last of all is the last of one of them, and of the other if there is none. Which of the two
it is when both have sent is the race that no order of the parts decides. -/
theorem getLast?_eq (h : Interleaved xs ys zs) :
    zs.getLast? = xs.getLast?.or ys.getLast? ∨ zs.getLast? = ys.getLast?.or xs.getLast? := by
  cases h with
  | nil => exact Or.inl rfl
  | left x _ => exact Or.inl (by rw [List.getLast?_concat, List.getLast?_concat, Option.some_or])
  | right y _ => exact Or.inr (by rw [List.getLast?_concat, List.getLast?_concat, Option.some_or])

end Interleaved
