/-!
# Durations

A length of time in whole nanoseconds. The longest one has 2^64 - 1 seconds and 999999999 nanoseconds,
and a sum beyond it is refused instead of being cut off.
-/

namespace PeerSubstrate.Time

/-- Nanoseconds. -/
abbrev Duration := Nat

namespace Duration

def second : Duration := 1000000000

/-- The longest duration. -/
def longest : Duration := (UInt64.size - 1) * second + 999999999

/-- A sum went beyond the longest duration. -/
inductive Overflow where
  | addition
  deriving DecidableEq, Repr

def Overflow.message : Overflow → String
  | .addition => "overflow when adding durations"

/-- The sum of two durations, if there is one that long. -/
def sum (a b : Duration) : Except Overflow Duration :=
  if a + b ≤ longest then .ok (a + b) else .error .addition

/-- Whole microseconds, at most 2^64 - 1 of them. -/
def toMicros (d : Duration) : Nat := min (d / 1000) (UInt64.size - 1)

def ofMicros (n : Nat) : Duration := n * 1000

def ofMillis (n : Nat) : Duration := n * 1000000

end Duration

end PeerSubstrate.Time
