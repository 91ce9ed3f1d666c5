import PeerSubstrate.RoundTrip.Bisection
import PeerSubstrate.Time.Duration

/-!
# Round trip times

The last `sampleCount` round trip times decide how long to wait for an answer. They are kept in a ring
in whole microseconds; after every `recalcInterval` of them a sorted snapshot is published, and all
that is asked of the estimator is read from that snapshot. Two of its elements matter: the ceiling,
below which nine tenths of the samples lie, and the baseline, below which one tenth does.

A recalculation prepares its snapshot and publishes it in two steps. It notes which snapshot it is
going to replace, and if that one is gone when it wants to publish, because of a reset or because
another recalculation was faster, it is dropped.
-/

namespace PeerSubstrate.RoundTrip
open PeerSubstrate.Time

/-- Samples that are kept. -/
def sampleCount : Nat := 256

/-- Samples between two recalculations. -/
def recalcInterval : Nat := 16

/-- The longest timeout ever, with which all samples start, and what is added to the baseline. -/
structure Config where
  maxTimeout : Duration := 10 * Duration.second
  minMargin : Duration := Duration.ofMillis 100
  deriving DecidableEq

/-- Samples in ascending order, and the number that tells this snapshot from all others. -/
structure Snapshot where
  version : Nat
  sorted : List Duration
  deriving DecidableEq

namespace Snapshot

/-- The element below which `numerator` of `denominator` parts lie. -/
def quantile (numerator denominator : Nat) (s : Snapshot) : Duration :=
  s.sorted.getD (s.sorted.length * numerator / denominator) 0

/-- The high quantile. -/
def ceiling (s : Snapshot) : Duration := s.quantile 9 10

/-- The low quantile. -/
def baseline (s : Snapshot) : Duration := s.quantile 1 10

/-- How many samples are no longer than `elapsed`, found by bisection. -/
def completed (elapsed : Duration) (s : Snapshot) : Nat := partitionPoint (· ≤ elapsed) s.sorted

end Snapshot

/-- The ring of samples, the number of samples reported since the last reset, and the snapshot that all answers
are read from. Snapshots are numbered in the order in which they are published. `cursor` stands for a counter of
64 bits: fewer than 2^64 samples are reported. -/
structure Estimator where
  config : Config
  samples : List Nat
  cursor : Nat
  snapshot : Snapshot
  deriving DecidableEq

/-- A snapshot that has been computed, and the one it is meant to replace. -/
structure Prepared where
  replaces : Nat
  sorted : List Duration
  deriving DecidableEq

namespace Estimator

/-- Samples that all have the longest timeout. -/
def seed (config : Config) : List Nat := List.replicate sampleCount config.maxTimeout.toMicros

/-- The snapshot before any recalculation. -/
def seeded (config : Config) (version : Nat) : Snapshot :=
  ⟨version, List.replicate sampleCount config.maxTimeout⟩

/-- An estimator that no sample has been reported to. -/
def ofConfig (config : Config) : Estimator :=
  { config, samples := seed config, cursor := 0, snapshot := seeded config 0 }

/-- Reads the samples for a recalculation. -/
def prepare (e : Estimator) : Prepared :=
  { replaces := e.snapshot.version
    sorted := (e.samples.map Duration.ofMicros).mergeSort }

/-- Publishes a recalculation, unless the snapshot it is meant to replace is gone. -/
def publish (p : Prepared) (e : Estimator) : Estimator :=
  if e.snapshot.version = p.replaces then
    { e with snapshot := ⟨e.snapshot.version + 1, p.sorted⟩ }
  else e

/-- Puts a sample into the ring, over the oldest one. -/
def record (rtt : Duration) (e : Estimator) : Estimator :=
  { e with
    samples := e.samples.set (e.cursor % sampleCount) rtt.toMicros
    cursor := e.cursor + 1 }

def recalcDue (e : Estimator) : Bool := e.cursor % recalcInterval == 0

def recalculate (e : Estimator) : Estimator := e.publish e.prepare

def update (rtt : Duration) (e : Estimator) : Estimator :=
  let e := e.record rtt
  if e.recalcDue then e.recalculate else e

def reset (e : Estimator) : Estimator :=
  { e with
    samples := seed e.config
    cursor := 0
    snapshot := seeded e.config (e.snapshot.version + 1) }

/-- The high quantile of the last snapshot. -/
def ceiling (e : Estimator) : Duration := e.snapshot.ceiling

/-- The low quantile of the last snapshot. -/
def baseline (e : Estimator) : Duration := e.snapshot.baseline

/-- How long to wait for an answer: the baseline with its margin or the ceiling, whichever is longer,
but never longer than the longest timeout. -/
def stallTimeout (e : Estimator) : Except Duration.Overflow Duration :=
  (Duration.sum e.baseline e.config.minMargin).map fun raised =>
    min (max raised e.ceiling) e.config.maxTimeout

/-- The fraction of the samples of the last snapshot that were answered within `elapsed`. -/
def completionProbability (elapsed : Duration) (e : Estimator) : Rat :=
  (e.snapshot.completed elapsed : Rat) / (e.snapshot.sorted.length : Rat)

/-- The chance that a request which has waited for `elapsed` is still going to be answered in the time that the samples took. -/
def flightProbability (elapsed : Duration) (e : Estimator) : Rat := 1 - e.completionProbability elapsed

end Estimator

/-- Reports several round trip times in turn. -/
def Estimator.updateAll (rtts : List Duration) (e : Estimator) : Estimator :=
  rtts.foldl (fun e rtt => e.update rtt) e

end PeerSubstrate.RoundTrip
