import Mathlib.Data.Rat.Cast.Order
import PeerSubstrate.Proofs.RoundTrip.Publication

/-!
# Ranks

In a list in ascending order the elements up to a bound stand before all others. So an element is within the bound exactly if
its place is one of the first ones, as many as there are elements within the bound (`holds_iff_lt_countP`), and bisection finds
how many that are (`partitionPoint_eq_countP`). What an estimator answers is a matter of such counts: the probabilities are
counts divided by the number of samples, and a threshold is within a bound exactly if more samples are than stand before its
place.
-/

namespace PeerSubstrate.RoundTrip
open PeerSubstrate.Time

section Partition

variable {α : Type} {p : α → Bool} {xs : List α}

/-- What has the property stands before all that does not. -/
def Partitioned (p : α → Bool) (xs : List α) : Prop := xs.Pairwise fun x y => p y → p x

/-- The elements with the property are the first ones. -/
theorem any_getElem?_iff (parted : Partitioned p xs) (i : Nat) : xs[i]?.any p = true ↔ i < xs.countP p := by
  induction xs generalizing i with
  | nil => simp
  | cons x xs ih =>
    obtain ⟨first, others⟩ := List.pairwise_cons.mp parted
    by_cases holds : p x = true
    · rw [List.countP_cons_of_pos holds]
      cases i with
      | zero => simp [holds]
      | succ i => rw [List.getElem?_cons_succ, ih others, Nat.succ_lt_succ_iff]
    · have none : ∀ y ∈ xs, ¬ p y = true := fun y later has => holds (first y later has)
      rw [List.countP_cons_of_neg holds, List.countP_eq_zero.mpr none]
      refine iff_of_false ?_ (Nat.not_lt_zero i)
      cases i with
      | zero => simpa using holds
      | succ i =>
        rw [List.getElem?_cons_succ, ih others, List.countP_eq_zero.mpr none]
        exact Nat.not_lt_zero i

private theorem holds_iff_lt_countP (parted : Partitioned p xs) {i : Nat} {x : α} (found : xs[i]? = some x) :
    p x = true ↔ i < xs.countP p := by
  rw [← any_getElem?_iff parted i, found, Option.any_some]

/-- The search ends at the place that it never passes on either side. -/
theorem bisect_eq_countP (parted : Partitioned p xs) {low high : Nat} (above : low ≤ xs.countP p)
    (below : xs.countP p ≤ high) : bisect p xs low high = xs.countP p := by
  fun_induction bisect p xs low high with
  | case1 low high apart middle holds ih =>
    exact ih ((any_getElem?_iff parted middle).mp holds) below
  | case2 low high apart middle fails ih =>
    exact ih above (Nat.le_of_not_lt fun inside => fails ((any_getElem?_iff parted middle).mpr inside))
  | case3 low high met => exact Nat.le_antisymm above (Nat.le_trans below (Nat.le_of_not_lt met))

/-- Bisection finds how many elements have the property. -/
theorem partitionPoint_eq_countP (parted : Partitioned p xs) : partitionPoint p xs = xs.countP p :=
  bisect_eq_countP parted (Nat.zero_le _) List.countP_le_length

end Partition

section Bounds

variable {sorted : List Duration} {i : Nat} {d e : Duration}

private theorem partitioned_le (ascending : sorted.Pairwise (· ≤ ·)) (d : Duration) : Partitioned (· ≤ d) sorted :=
  ascending.imp fun le within => by simpa using Nat.le_trans le (by simpa using within)

private theorem partitioned_lt (ascending : sorted.Pairwise (· ≤ ·)) (d : Duration) : Partitioned (· < d) sorted :=
  ascending.imp fun le within => by simpa using Nat.lt_of_le_of_lt le (by simpa using within)

/-- An element is within a bound exactly if more elements are than stand before it. -/
theorem le_iff_lt_countP (ascending : sorted.Pairwise (· ≤ ·)) (found : sorted[i]? = some e) :
    e ≤ d ↔ i < sorted.countP (· ≤ d) := by
  simpa using holds_iff_lt_countP (partitioned_le ascending d) found

/-- Where no more elements are shorter than stand before a place, but more are no longer, that length stands there. -/
theorem eq_of_countP (ascending : sorted.Pairwise (· ≤ ·)) (found : sorted[i]? = some e)
    (shorter : sorted.countP (· < d) ≤ i) (noLonger : i < sorted.countP (· ≤ d)) : e = d := by
  have least : ¬ e < d := by
    intro less
    have before := (holds_iff_lt_countP (partitioned_lt ascending d) found).mp (by simpa using less)
    exact Nat.not_lt_of_le shorter before
  exact Nat.le_antisymm ((le_iff_lt_countP ascending found).mpr noLonger) (Nat.le_of_not_lt least)

end Bounds

section Answers

variable {e : Estimator} {d : Duration}

private theorem Snapshot.completed_eq {s : Snapshot} (ascending : s.sorted.Pairwise (· ≤ ·)) :
    s.completed d = s.sorted.countP (· ≤ d) :=
  partitionPoint_eq_countP (partitioned_le ascending d)

theorem Estimator.completionProbability_eq (visible : Ascending e.snapshot.sorted) :
    e.completionProbability d = (e.snapshot.sorted.countP (· ≤ d) : Rat) / 256 := by
  rw [completionProbability, Snapshot.completed_eq visible.1, visible.2]
  rfl

theorem Estimator.ceiling_le_iff (visible : Ascending e.snapshot.sorted) :
    e.ceiling ≤ d ↔ 231 ≤ e.snapshot.sorted.countP (· ≤ d) :=
  le_iff_lt_countP visible.1 (e.snapshot.getElem?_ceiling visible.2)

theorem Estimator.baseline_le_iff (visible : Ascending e.snapshot.sorted) :
    e.baseline ≤ d ↔ 26 ≤ e.snapshot.sorted.countP (· ≤ d) :=
  le_iff_lt_countP visible.1 (e.snapshot.getElem?_baseline visible.2)

end Answers

end PeerSubstrate.RoundTrip
