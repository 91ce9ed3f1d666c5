import PeerSubstrate.Time.Duration

/-!
# Instants

A point in time, in whole nanoseconds from an origin that is the same for all threads. Seconds are
counted in 64 bits with a sign, so there is a latest instant, and no instant lies beyond it.
-/

namespace PeerSubstrate.Time

/-- Nanoseconds from the origin of the clock. -/
abbrev Instant := Int

namespace Instant

/-- The latest instant. -/
def latest : Instant := (Int64.maxValue.toInt + 1) * Duration.second - 1

/-- The instant that lies `d` after `t`, if there is one. -/
def after? (t : Instant) (d : Duration) : Option Instant :=
  if t + d ≤ latest then some (t + d) else none

def overflowMessage : String := "overflow when adding duration to instant"

end Instant

end PeerSubstrate.Time
