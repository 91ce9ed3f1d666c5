import Mathlib.Order.MinMax
import PeerSubstrate.Proofs.RoundTrip.Window

/-!
# The stall timeout

All that is published is either the longest timeout or a sample as it is kept, and no sample is kept as more than 2^64 - 1
microseconds. So the baseline is bounded whatever is reported (`Published.le`), and it reaches that bound: at once if the
longest timeout is the bound, and otherwise when the whole window is filled with the longest samples there are
(`exists_baseline_eq`). Where the bound and the margin have a sum there always is a stall timeout, and elsewhere there is a
history after which there is none (`stallTimeout_overflow_or_bounded`).
-/

namespace PeerSubstrate.RoundTrip
open PeerSubstrate.Time

/-- The most that a sample is kept as. -/
def longestKept : Duration := .ofMicros (UInt64.size - 1)

/-- The most that is published. -/
def Config.longestPublished (config : Config) : Duration := max config.maxTimeout longestKept

private theorem inMicros_le (d : Duration) : inMicros d ≤ longestKept :=
  Nat.mul_le_mul_right 1000 (Nat.min_le_right _ _)

/-- The longest duration is far longer than the most that is kept. -/
theorem inMicros_longest : inMicros Duration.longest = longestKept := by decide

section Published

variable {config : Config} {samples sorted : List Duration} {d : Duration}

/-- Of the window nothing is longer than the most that is kept, nor is what fills it up. -/
theorem filled_le (found : d ∈ filled config samples) : d ≤ longestKept := by
  rw [filled, List.mem_append, List.mem_map] at found
  obtain ⟨sample, -, rfl⟩ | filling := found
  · exact inMicros_le sample
  · rw [List.eq_of_mem_replicate filling]
    exact inMicros_le config.maxTimeout

private theorem Published.le (published : Published config samples sorted) (found : d ∈ sorted) :
    d ≤ config.longestPublished := by
  unfold Published at published
  split at published
  case isTrue few =>
    rw [published] at found
    rw [List.eq_of_mem_replicate found]
    exact Nat.le_max_left _ _
  case isFalse enough => exact Nat.le_trans (filled_le (published.2.mem_iff.mp found)) (Nat.le_max_right _ _)

/-- While no interval is complete, nothing but the longest timeout is published. -/
theorem Published.of_few (published : Published config samples sorted) (few : samples.length < recalcInterval)
    (found : d ∈ sorted) : d = config.maxTimeout := by
  unfold Published at published
  rw [if_pos few] at published
  rw [published] at found
  exact List.eq_of_mem_replicate found

/-- When the whole window has the longest samples, nothing else is published. -/
theorem Published.of_longest (published : Published config samples sorted) (size : samples.length = sampleCount)
    (long : ∀ sample ∈ samples, sample = Duration.longest) (found : d ∈ sorted) : d = longestKept := by
  have complete : samples.length % recalcInterval = 0 := by rw [size]; rfl
  have enough : ¬ samples.length < recalcInterval := by rw [size]; decide
  have whole : window samples = samples := by
    rw [window, counted_of_complete complete, size, Nat.sub_self, List.drop_zero]
  unfold Published at published
  rw [if_neg enough] at published
  have kept := published.2.mem_iff.mp found
  rw [filled, whole, size, Nat.sub_self, List.replicate_zero, List.append_nil, List.mem_map] at kept
  obtain ⟨sample, among, rfl⟩ := kept
  rw [long sample among, inMicros_longest]

end Published

section Follows

variable {config : Config} {samples : List Duration} {e : Estimator}

private theorem Follows.mem_baseline (follows : Follows config samples e) : e.baseline ∈ e.snapshot.sorted :=
  List.mem_of_getElem? (e.snapshot.getElem?_baseline follows.published.length)

private theorem Follows.mem_ceiling (follows : Follows config samples e) : e.ceiling ∈ e.snapshot.sorted :=
  List.mem_of_getElem? (e.snapshot.getElem?_ceiling follows.published.length)

end Follows

theorem follows_reports (config : Config) (reports : List Report) :
    Follows config (sinceReset reports) (Estimator.ofReports config reports) :=
  (Follows.start config).heedAll reports

/-- Samples are added to those since the last reset. -/
theorem sinceReset_append (reports : List Report) (samples : List Duration) :
    sinceReset (reports ++ samples.map Report.sample) = sinceReset reports ++ samples := by
  rw [sinceReset, List.foldl_append]
  change (samples.map Report.sample).foldl Report.append (sinceReset reports) = _
  generalize sinceReset reports = before
  induction samples generalizing before with
  | nil => exact (List.append_nil before).symm
  | cons rtt samples ih => rw [List.map_cons, List.foldl_cons, ih, Report.append, List.append_assoc, List.singleton_append]

/-- Without a reset, all samples that are reported are samples since the last reset. -/
theorem sinceReset_samples (samples : List Duration) : sinceReset (samples.map Report.sample) = samples :=
  sinceReset_append [] samples

/-- The bound of the baseline is reached, and that with samples that are no longer than durations can be. -/
theorem exists_baseline_eq (config : Config) : ∃ reports, (∀ rtt, Report.sample rtt ∈ reports → rtt ≤ Duration.longest) ∧
    (Estimator.ofReports config reports).baseline = config.longestPublished := by
  by_cases bound : longestKept ≤ config.maxTimeout
  case pos =>
    refine ⟨[], by simp, ?_⟩
    have follows := follows_reports config []
    rw [Config.longestPublished, Nat.max_eq_left bound]
    exact follows.published.of_few (by decide) follows.mem_baseline
  case neg =>
    obtain ⟨samples, size, long⟩ : ∃ samples, samples.length = sampleCount ∧ ∀ sample ∈ samples, sample = Duration.longest :=
      ⟨List.replicate sampleCount Duration.longest, List.length_replicate, fun _ => List.eq_of_mem_replicate⟩
    refine ⟨samples.map Report.sample, ?_, ?_⟩
    · intro rtt reported
      obtain ⟨sample, among, same⟩ := List.mem_map.mp reported
      cases same
      exact Nat.le_of_eq (long rtt among)
    · have follows := follows_reports config (samples.map Report.sample)
      have published := follows.published
      rw [sinceReset_samples] at published
      rw [Config.longestPublished, Nat.max_eq_right (Nat.le_of_not_le bound)]
      exact published.of_longest size long follows.mem_baseline

namespace Estimator

variable {e : Estimator}

/-- There is no stall timeout exactly if the baseline and the margin have no sum. -/
theorem stallTimeout_eq_error :
    e.stallTimeout = .error .addition ↔ Duration.longest < e.baseline + e.config.minMargin := by
  unfold stallTimeout Duration.sum
  split
  case isTrue fits => exact iff_of_false (by simp [Except.map]) (Nat.not_lt_of_le fits)
  case isFalse exceeds => exact iff_of_true rfl (Nat.lt_of_not_le exceeds)

theorem stallTimeout_of_le (fits : e.baseline + e.config.minMargin ≤ Duration.longest) :
    e.stallTimeout = .ok (min (max (e.baseline + e.config.minMargin) e.ceiling) e.config.maxTimeout) := by
  rw [stallTimeout, Duration.sum, if_pos fits]
  rfl

end Estimator

/-- Some history leaves no stall timeout exactly if the margin and the most that is published have no sum. Otherwise there is
one after every history: it is at most the longest timeout, and as long as the ceiling and the baseline with its margin where
that allows it. It is the longest timeout until an interval is complete. -/
theorem stallTimeout_overflow_or_bounded (config : Config) :
    ((∃ reports, (∀ rtt, Report.sample rtt ∈ reports → rtt ≤ Duration.longest) ∧
        (Estimator.ofReports config reports).stallTimeout = .error .addition) ↔
      Duration.longest < config.minMargin + max config.maxTimeout (.ofMicros (UInt64.size - 1))) ∧
    (config.minMargin + max config.maxTimeout (.ofMicros (UInt64.size - 1)) ≤ Duration.longest → ∀ reports,
      let e := Estimator.ofReports config reports
      ∃ t, e.stallTimeout = .ok t ∧ t ≤ config.maxTimeout ∧ min config.maxTimeout (e.baseline + config.minMargin) ≤ t ∧
        min config.maxTimeout e.ceiling ≤ t ∧ ((sinceReset reports).length < 16 → t = config.maxTimeout)) := by
  have bound : max config.maxTimeout (.ofMicros (UInt64.size - 1)) = config.longestPublished := rfl
  have setUp : ∀ reports, (Estimator.ofReports config reports).config = config :=
    fun reports => (follows_reports config reports).rings.setUp
  have most : ∀ reports, (Estimator.ofReports config reports).baseline ≤ config.longestPublished := fun reports =>
    have follows := follows_reports config reports
    follows.published.le follows.mem_baseline
  rw [bound]
  constructor
  case left =>
    constructor
    · rintro ⟨reports, -, refused⟩
      calc Duration.longest
        _ < (Estimator.ofReports config reports).baseline + (Estimator.ofReports config reports).config.minMargin :=
          Estimator.stallTimeout_eq_error.mp refused
        _ ≤ config.minMargin + config.longestPublished := by
          rw [setUp reports, Nat.add_comm]
          exact Nat.add_le_add_left (most reports) _
    · intro exceeds
      obtain ⟨reports, durations, reached⟩ := exists_baseline_eq config
      refine ⟨reports, durations, Estimator.stallTimeout_eq_error.mpr ?_⟩
      rw [setUp reports, reached, Nat.add_comm]
      exact exceeds
  case right =>
    intro fits reports e
    have sum : e.baseline + e.config.minMargin ≤ Duration.longest := by
      rw [setUp reports, Nat.add_comm]
      exact Nat.le_trans (Nat.add_le_add_left (most reports) _) fits
    refine ⟨_, Estimator.stallTimeout_of_le sum, ?_⟩
    rw [setUp reports, Nat.min_comm]
    refine ⟨Nat.min_le_left _ _, ?_, ?_, fun few => ?_⟩
    · exact min_le_min_left _ (Nat.le_max_left _ _)
    · exact min_le_min_left _ (Nat.le_max_right _ _)
    · have follows := follows_reports config reports
      have ceiling : e.ceiling = config.maxTimeout := follows.published.of_few few follows.mem_ceiling
      rw [ceiling]
      exact Nat.min_eq_left (Nat.le_max_right _ _)

end PeerSubstrate.RoundTrip
