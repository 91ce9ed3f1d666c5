/-!
# Bisection

Where the elements that have a property stand before all others, the place at which the others begin is found by looking at
the middle of what is left and going on in one of the halves. In any other list the place that is found means nothing.
-/

namespace PeerSubstrate.RoundTrip

variable {α : Type}

/-- Looks for the place from `low` to `high` where the elements begin that do not have the property. -/
def bisect (p : α → Bool) (xs : List α) (low high : Nat) : Nat :=
  if low < high then
    let middle := low + (high - low) / 2
    if xs[middle]?.any p then bisect p xs (middle + 1) high else bisect p xs low middle
  else low
termination_by high - low

/-- The place in the whole list where the elements begin that do not have the property. -/
def partitionPoint (p : α → Bool) (xs : List α) : Nat := bisect p xs 0 xs.length

end PeerSubstrate.RoundTrip
