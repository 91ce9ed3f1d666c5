import Mathlib.Data.List.Rotate
import PeerSubstrate.RoundTrip.Estimator

/-!
# The window of samples

Read from the slot where the next sample goes, the ring is the end of a history: first the samples with which it was filled,
then all that have been reported since the last reset (`Follows`). A snapshot is taken from it whenever an interval is
complete, so what is published is the last window before the last complete interval (`snapshot_of_window`).
-/

namespace PeerSubstrate.RoundTrip
open PeerSubstrate.Time

/-- What an estimator is told, one after another. -/
inductive Report where
  | sample (rtt : Duration)
  | reset
  deriving DecidableEq

/-- The estimator after one more report. -/
def Estimator.heed (e : Estimator) : Report → Estimator
  | .sample rtt => e.update rtt
  | .reset => e.reset

/-- The estimator after all reports. -/
def Estimator.ofReports (config : Config) (reports : List Report) : Estimator :=
  reports.foldl Estimator.heed (.ofConfig config)

/-- The samples since the last reset when there is one more report. -/
def Report.append (samples : List Duration) : Report → List Duration
  | .sample rtt => samples ++ [rtt]
  | .reset => []

/-- The samples since the last reset. -/
def sinceReset (reports : List Report) : List Duration := reports.foldl Report.append []

/-- A duration as it is kept: cut off to whole microseconds, of which there are at most 2^64 - 1. -/
def inMicros (d : Duration) : Duration := .ofMicros d.toMicros

/-- The conversion in one formula, in nanoseconds before and after. -/
theorem inMicros_eq (d : Duration) : inMicros d = min (d / 1000) (UInt64.size - 1) * 1000 := rfl

/-- The samples up to the end of the last complete interval. -/
def counted (samples : List Duration) : List Duration :=
  samples.take (recalcInterval * (samples.length / recalcInterval))

/-- The last of them, as many as are kept. -/
def window (samples : List Duration) : List Duration := (counted samples).drop ((counted samples).length - sampleCount)

/-- The window as it is kept, filled up with the longest timeout. -/
def filled (config : Config) (samples : List Duration) : List Duration :=
  (window samples).map inMicros ++ List.replicate (sampleCount - (window samples).length) (inMicros config.maxTimeout)

/-- What is published: the longest timeout while no interval is complete, then the filled window in ascending order. -/
def Published (config : Config) (samples sorted : List Duration) : Prop :=
  if samples.length < recalcInterval then sorted = List.replicate sampleCount config.maxTimeout
  else sorted.Pairwise (· ≤ ·) ∧ sorted.Perm (filled config samples)

/-- To write at the front of a ring and to go on by one slot puts the new element behind all others. -/
theorem rotate_set {α : Type} {ring : List α} {k : Nat} (inside : k < ring.length) (x : α) :
    (ring.set k x).rotate (k + 1) = (ring.rotate k).tail ++ [x] := by
  have split : ring = ring.take k ++ ring[k] :: ring.drop (k + 1) := by
    rw [List.getElem_cons_drop, List.take_append_drop]
  have front : (ring.take k).length = k := List.length_take_of_le (Nat.le_of_lt inside)
  generalize ring.take k = before, ring.drop (k + 1) = after, ring[k] = old at split front
  subst split front
  have written : (before ++ old :: after).set before.length x = before ++ [x] ++ after := by simp
  have onward : before.length + 1 = (before ++ [x]).length := by simp
  rw [written, List.rotate_append_length_eq, onward, List.rotate_append_length_eq, List.cons_append, List.tail_cons,
    List.append_assoc]

/-- The estimator was set up like this, and its ring holds these samples, the latest ones at the end. -/
structure Rings (config : Config) (samples : List Duration) (e : Estimator) : Prop where
  setUp : e.config = config
  cursor : e.cursor = samples.length
  ring : e.samples.rotate (samples.length % sampleCount) =
    (Estimator.seed config ++ samples.map Duration.toMicros).drop samples.length

section Rings

variable {config : Config} {samples : List Duration} {e : Estimator} {rtt : Duration}

theorem Rings.length_ring (rings : Rings config samples e) : e.samples.length = sampleCount := by
  have lengths := congrArg List.length rings.ring
  simpa [Estimator.seed] using lengths

/-- The ring holds the latest samples and, if there are fewer than fit in, what it was filled with. -/
theorem Rings.perm (rings : Rings config samples e) : e.samples.Perm
    ((samples.drop (samples.length - sampleCount)).map Duration.toMicros ++
      List.replicate (sampleCount - samples.length) config.maxTimeout.toMicros) := by
  have turned : (e.samples.rotate (samples.length % sampleCount)).Perm e.samples := List.rotate_perm _ _
  rw [rings.ring, Estimator.seed, List.drop_append, List.length_replicate, List.drop_replicate, ← List.map_drop] at turned
  exact turned.symm.trans List.perm_append_comm

/-- A new sample is the end of the history, and what was its oldest one is gone. -/
theorem Rings.record (rings : Rings config samples e) : Rings config (samples ++ [rtt]) (e.record rtt) := by
  have inside : samples.length % sampleCount < e.samples.length := by
    rw [rings.length_ring]
    exact Nat.mod_lt _ (by decide)
  have size : (e.samples.set (samples.length % sampleCount) rtt.toMicros).length = sampleCount := by
    rw [List.length_set, rings.length_ring]
  constructor
  case setUp => exact rings.setUp
  case cursor => rw [Estimator.record, rings.cursor, List.length_append, List.length_singleton]
  case ring =>
    have slot : (e.samples.set (samples.length % sampleCount) rtt.toMicros).rotate ((samples ++ [rtt]).length % sampleCount) =
        (e.samples.set (samples.length % sampleCount) rtt.toMicros).rotate (samples.length % sampleCount + 1) := by
      have next : (samples ++ [rtt]).length % sampleCount = (samples.length % sampleCount + 1) % sampleCount := by
        rw [List.length_append, List.length_singleton, Nat.mod_add_mod]
      have turn := List.rotate_mod (e.samples.set (samples.length % sampleCount) rtt.toMicros) (samples.length % sampleCount + 1)
      rw [size] at turn
      rw [next, turn]
    have long : samples.length + 1 ≤ (Estimator.seed config ++ samples.map Duration.toMicros).length := by
      have some : 0 < sampleCount := by decide
      simp only [Estimator.seed, List.length_append, List.length_replicate, List.length_map]
      omega
    have added : Estimator.seed config ++ (samples ++ [rtt]).map Duration.toMicros =
        Estimator.seed config ++ samples.map Duration.toMicros ++ [rtt.toMicros] := by simp
    rw [Estimator.record, rings.cursor, slot, rotate_set inside, rings.ring, List.tail_drop, added, List.length_append,
      List.length_singleton, List.drop_append_of_le_length long]

/-- Every answer after a reset is as if nothing had been reported before. -/
theorem Rings.reset (rings : Rings config samples e) : Rings config [] e.reset := by
  refine ⟨rings.setUp, rfl, ?_⟩
  rw [Estimator.reset, rings.setUp]
  exact (List.rotate_zero _).trans (List.append_nil _).symm

end Rings

section Published

variable {config : Config} {samples sorted : List Duration} {rtt : Duration}

/-- At the end of an interval all samples count. -/
theorem counted_of_complete (complete : samples.length % recalcInterval = 0) : counted samples = samples := by
  have whole : recalcInterval * (samples.length / recalcInterval) = samples.length :=
    Nat.mul_div_cancel' (Nat.dvd_of_mod_eq_zero complete)
  rw [counted, whole, List.take_length]

/-- Within an interval one more sample does not count. -/
theorem counted_concat (rtt : Duration) (incomplete : (samples.length + 1) % recalcInterval ≠ 0) :
    counted (samples ++ [rtt]) = counted samples := by
  have same : (samples.length + 1) / recalcInterval = samples.length / recalcInterval :=
    Nat.succ_div_of_mod_ne_zero incomplete
  rw [counted, counted, List.length_append, List.length_singleton, same, List.take_append_of_le_length]
  exact Nat.mul_div_le _ _

/-- Within an interval what is published stays. -/
theorem Published.concat (published : Published config samples sorted)
    (incomplete : (samples.length + 1) % recalcInterval ≠ 0) : Published config (samples ++ [rtt]) sorted := by
  have begun : samples.length + 1 < recalcInterval ↔ samples.length < recalcInterval := by
    have other : samples.length + 1 ≠ recalcInterval := by
      intro same
      rw [same] at incomplete
      exact incomplete (Nat.mod_self _)
    omega
  unfold Published filled window at published ⊢
  simp only [List.length_append, List.length_singleton, begun, counted_concat rtt incomplete]
  exact published

/-- Sorting keeps the elements and puts them in order. -/
theorem prepare_sorted (e : Estimator) :
    e.prepare.sorted.Pairwise (· ≤ ·) ∧ e.prepare.sorted.Perm (e.samples.map Duration.ofMicros) := by
  have pairwise := @List.pairwise_mergeSort Duration (fun a b => decide (a ≤ b))
    (fun a b c => by simpa using Nat.le_trans) (fun a b => by simpa using Nat.le_total a b) (e.samples.map Duration.ofMicros)
  exact ⟨pairwise.imp fun le => by simpa using le, List.mergeSort_perm _ _⟩

/-- What a recalculation reads are the latest samples and, if there are fewer than fit in, what the ring was filled with. -/
theorem Rings.prepared {e : Estimator} (rings : Rings config samples e) : e.prepare.sorted.Pairwise (· ≤ ·) ∧
    e.prepare.sorted.Perm ((samples.drop (samples.length - sampleCount)).map inMicros ++
      List.replicate (sampleCount - samples.length) (inMicros config.maxTimeout)) := by
  obtain ⟨pairwise, perm⟩ := prepare_sorted e
  have kept := rings.perm.map Duration.ofMicros
  rw [List.map_append, List.map_map, List.map_replicate] at kept
  exact ⟨pairwise, perm.trans kept⟩

/-- A snapshot that is taken at the end of an interval shows the filled window. -/
theorem Rings.published {e : Estimator} (rings : Rings config samples e) (complete : samples.length % recalcInterval = 0)
    (some : samples ≠ []) : Published config samples e.prepare.sorted := by
  have enough : ¬ samples.length < recalcInterval := by
    intro few
    rw [Nat.mod_eq_of_lt few] at complete
    exact some (List.length_eq_zero_iff.mp complete)
  have size : sampleCount - (samples.drop (samples.length - sampleCount)).length = sampleCount - samples.length := by
    rw [List.length_drop]
    omega
  unfold Published filled window
  rw [if_neg enough, counted_of_complete complete, size]
  exact rings.prepared

/-- What is published has as many elements as samples are kept. -/
theorem Published.length (published : Published config samples sorted) : sorted.length = sampleCount := by
  unfold Published at published
  split at published
  · rw [published, List.length_replicate]
  · rw [published.2.length_eq, filled, List.length_append, List.length_map, List.length_replicate, window, List.length_drop]
    omega

end Published

section Quantile

variable {s : Snapshot} {numerator denominator : Nat}

/-- Below the whole, a quantile is the element at its place. -/
theorem Snapshot.getElem?_quantile (inside : s.sorted.length * numerator / denominator < s.sorted.length) :
    s.sorted[s.sorted.length * numerator / denominator]? = some (s.quantile numerator denominator) := by
  rw [Snapshot.quantile, List.getD_eq_getElem?_getD, List.getElem?_eq_getElem inside, Option.getD_some]

theorem Snapshot.getElem?_ceiling (size : s.sorted.length = sampleCount) : s.sorted[230]? = some s.ceiling := by
  have place : s.sorted.length * 9 / 10 = 230 := by rw [size]; rfl
  have inside : s.sorted.length * 9 / 10 < s.sorted.length := by rw [place, size]; decide
  rw [← place]
  exact s.getElem?_quantile inside

theorem Snapshot.getElem?_baseline (size : s.sorted.length = sampleCount) : s.sorted[25]? = some s.baseline := by
  have place : s.sorted.length * 1 / 10 = 25 := by rw [size]; rfl
  have inside : s.sorted.length * 1 / 10 < s.sorted.length := by rw [place, size]; decide
  rw [← place]
  exact s.getElem?_quantile inside

/-- Where all elements are the same, both thresholds are that element. -/
theorem Snapshot.thresholds_of_replicate {d : Duration} (same : s.sorted = List.replicate sampleCount d) :
    s.ceiling = d ∧ s.baseline = d := by
  have size : s.sorted.length = sampleCount := by rw [same, List.length_replicate]
  have element : ∀ {i : Nat} {x : Duration}, s.sorted[i]? = some x → x = d := by
    intro i x found
    have among := List.mem_of_getElem? found
    rw [same] at among
    exact List.eq_of_mem_replicate among
  exact ⟨element (getElem?_ceiling size), element (getElem?_baseline size)⟩

end Quantile

/-- The ring holds these samples, and what is published is read from them. -/
structure Follows (config : Config) (samples : List Duration) (e : Estimator) : Prop where
  rings : Rings config samples e
  published : Published config samples e.snapshot.sorted

section Follows

variable {config : Config} {samples : List Duration} {e : Estimator}

theorem Follows.start (config : Config) : Follows config [] (.ofConfig config) :=
  ⟨⟨rfl, rfl, (List.rotate_zero _).trans (List.append_nil _).symm⟩, rfl⟩

private theorem Follows.update (follows : Follows config samples e) (rtt : Duration) :
    Follows config (samples ++ [rtt]) (e.update rtt) := by
  have rings : Rings config (samples ++ [rtt]) (e.record rtt) := follows.rings.record
  have cursor : (e.record rtt).cursor = samples.length + 1 := by
    rw [rings.cursor, List.length_append, List.length_singleton]
  by_cases complete : (samples.length + 1) % recalcInterval = 0
  · have updated : e.update rtt = (e.record rtt).recalculate := by
      simp [Estimator.update, Estimator.recalcDue, cursor, complete]
    have stored : (e.record rtt).recalculate =
        { e.record rtt with snapshot := ⟨(e.record rtt).snapshot.version + 1, (e.record rtt).prepare.sorted⟩ } := by
      simp [Estimator.recalculate, Estimator.publish, Estimator.prepare]
    rw [updated, stored]
    refine ⟨⟨rings.setUp, rings.cursor, rings.ring⟩, rings.published ?_ (by simp)⟩
    rw [List.length_append, List.length_singleton, complete]
  · have updated : e.update rtt = e.record rtt := by
      simp [Estimator.update, Estimator.recalcDue, cursor, complete]
    rw [updated]
    exact ⟨rings, follows.published.concat complete⟩

private theorem Follows.reset (follows : Follows config samples e) : Follows config [] e.reset := by
  refine ⟨follows.rings.reset, ?_⟩
  rw [Estimator.reset, follows.rings.setUp]
  rfl

theorem Follows.heed (follows : Follows config samples e) (report : Report) :
    Follows config (report.append samples) (e.heed report) := by
  cases report with
  | sample rtt => exact follows.update rtt
  | reset => exact follows.reset

theorem Follows.heedAll (follows : Follows config samples e) (reports : List Report) :
    Follows config (reports.foldl Report.append samples) (reports.foldl Estimator.heed e) := by
  induction reports generalizing samples e with
  | nil => exact follows
  | cons report reports ih => exact ih (follows.heed report)

end Follows

end PeerSubstrate.RoundTrip
