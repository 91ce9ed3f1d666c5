import PeerSubstrate.Proofs.RoundTrip.Ranks
import PeerSubstrate.Proofs.RoundTrip.StallTimeout

/-!
# Response to a step

Round trips have long taken the same time, and from some point on they take another. While no interval is complete that has new
samples in it, the window ends within the old ones, and less than an interval of it is left from before them. Later it holds
old samples and then new ones, and nothing else (`window_step`). So whoever stands at a place that is neither among the first
nor among the last few of the window is an old sample until so many new ones count as there are places up to it, from the end
at which new samples stand (`place_of_longer`, `place_of_shorter`). The ceiling and the baseline are two such places
(`step_response`).
-/

namespace PeerSubstrate.RoundTrip
open PeerSubstrate.Time

/-- How many of the `j` samples that follow on `k` others count. -/
def countedBehind (k j : Nat) : Nat := recalcInterval * ((k + j) / recalcInterval) - k

section Window

variable {before : List Duration} {a b : Duration} {n j first size : Nat}

/-- A part of the history that ends with old samples. -/
theorem slice_within (begun : before.length ≤ size) (within : size ≤ before.length + n) :
    ((before ++ List.replicate n a ++ List.replicate j b).take size).drop first =
      before.drop first ++ List.replicate (size - max first before.length) a := by
  have whole : before.take size = before := List.take_of_length_le begun
  have ended : size - (before.length + n) = 0 := Nat.sub_eq_zero_of_le within
  have old : min (size - before.length) n - (first - before.length) = size - max first before.length := by omega
  simp only [List.take_append, List.take_replicate, List.drop_append, List.drop_replicate, List.length_append,
    List.length_replicate, whole, ended, old, Nat.zero_min, List.replicate_zero, List.append_nil]

/-- A part of the history that begins with old samples or later, and ends with new ones. -/
theorem slice_beyond (behind : before.length ≤ first) (beyond : before.length + n ≤ size)
    (inside : size ≤ before.length + n + j) :
    ((before ++ List.replicate n a ++ List.replicate j b).take size).drop first =
      List.replicate (before.length + n - first) a ++ List.replicate (size - max first (before.length + n)) b := by
  have whole : before.take size = before := List.take_of_length_le (Nat.le_trans (Nat.le_add_right _ _) beyond)
  have none : before.drop first = [] := List.drop_eq_nil_of_le behind
  have all : min (size - before.length) n = n := Nat.min_eq_right (by omega)
  have old : n - (first - before.length) = before.length + n - first := by omega
  have new : min (size - (before.length + n)) j - (first - (before.length + n)) = size - max first (before.length + n) := by omega
  simp only [List.take_append, List.take_replicate, List.drop_append, List.drop_replicate, List.length_append,
    List.length_replicate, whole, none, all, old, new, List.nil_append]

/-- After many old samples the window has at most a few that are earlier, and none of these if it has new ones. -/
theorem window_step (before : List Duration) (a b : Duration) (j : Nat) (many : sampleCount ≤ n) : ∃ early kept,
    window (before ++ List.replicate n a ++ List.replicate j b) =
      early ++ List.replicate kept a ++ List.replicate (min (countedBehind (before.length + n) j) sampleCount) b ∧
    early.length + kept + min (countedBehind (before.length + n) j) sampleCount = sampleCount ∧
    early.length < recalcInterval ∧ (early.length = 0 ∨ countedBehind (before.length + n) j = 0) := by
  obtain ⟨size, sized⟩ : ∃ size, size = recalcInterval * ((before.length + n + j) / recalcInterval) := ⟨_, rfl⟩
  have fresh : countedBehind (before.length + n) j = size - (before.length + n) := by rw [sized]; rfl
  have total : (before ++ List.replicate n a ++ List.replicate j b).length = before.length + n + j := by simp [Nat.add_assoc]
  have samples : sampleCount = 256 := rfl
  have interval : recalcInterval = 16 := rfl
  have full : sampleCount ≤ size := by rw [interval] at sized; omega
  have inside : size ≤ before.length + n + j := by rw [sized]; exact Nat.mul_div_le _ _
  have last : before.length + n + j < size + recalcInterval := by rw [interval] at sized ⊢; omega
  have part : window (before ++ List.replicate n a ++ List.replicate j b) =
      ((before ++ List.replicate n a ++ List.replicate j b).take size).drop (size - sampleCount) := by
    rw [window, counted, total, ← sized, List.length_take, total, Nat.min_eq_left inside]
  clear sized
  rw [part, fresh]
  rcases Nat.lt_or_ge (before.length + n) size with beyond | within
  · have new : size - max (size - sampleCount) (before.length + n) = min (size - (before.length + n)) sampleCount := by omega
    refine ⟨[], before.length + n - (size - sampleCount), ?_, ?_, by decide, .inl rfl⟩
    · rw [slice_beyond (by omega) (Nat.le_of_lt beyond) inside, new, List.nil_append]
    · rw [List.length_nil]
      omega
  · have none : size - (before.length + n) = 0 := Nat.sub_eq_zero_of_le within
    refine ⟨before.drop (size - sampleCount), size - max (size - sampleCount) before.length, ?_, ?_, ?_, .inr none⟩
    · rw [slice_within (by omega) within, none, Nat.zero_min, List.replicate_zero, List.append_nil]
    · rw [List.length_drop]
      omega
    · rw [List.length_drop]
      omega

end Window

/-- As many samples as are kept, in ascending order: a few early ones, old ones and new ones, but none that are early once there
are new ones. -/
structure Blend (early : List Duration) (old new : Duration) (kept fresh : Nat) (sorted : List Duration) : Prop where
  ascending : sorted.Pairwise (· ≤ ·)
  perm : sorted.Perm (early ++ List.replicate kept old ++ List.replicate fresh new)
  size : early.length + kept + fresh = sampleCount
  few : early.length < recalcInterval
  pure : early.length = 0 ∨ fresh = 0

namespace Blend

variable {early sorted : List Duration} {old new d : Duration} {kept fresh i : Nat}

/-- A place is taken by a length if few enough samples are shorter and enough are no longer. -/
theorem eq_of_counts (blend : Blend early old new kept fresh sorted) (found : sorted[i]? = some d) {v : Duration}
    (shorter : early.length + (if old < v then kept else 0) + (if new < v then fresh else 0) ≤ i)
    (noLonger : i < (if old ≤ v then kept else 0) + if new ≤ v then fresh else 0) : d = v := by
  have few : early.countP (· < v) ≤ early.length := List.countP_le_length
  refine eq_of_countP blend.ascending found ?_ ?_
  · simp only [blend.perm.countP_eq, List.countP_append, List.countP_replicate, decide_eq_true_eq]
    omega
  · simp only [blend.perm.countP_eq, List.countP_append, List.countP_replicate, decide_eq_true_eq]
    omega

/-- Longer samples stand at the end, and take a place when there are as many of them as places from it on. -/
theorem place_of_longer (blend : Blend early old new kept fresh sorted) (longer : old < new) (found : sorted[i]? = some d)
    (behind : recalcInterval ≤ i) (before : i + recalcInterval ≤ sampleCount) :
    d = if sampleCount ≤ i + fresh then new else old := by
  have ⟨_, _, size, few, pure⟩ := blend
  have samples : sampleCount = 256 := rfl
  have interval : recalcInterval = 16 := rfl
  split
  case isTrue reached =>
    refine blend.eq_of_counts found ?_ ?_
    · rw [if_pos longer, if_neg (Nat.lt_irrefl _)]
      omega
    · rw [if_pos (Nat.le_of_lt longer), if_pos (Nat.le_refl _)]
      omega
  case isFalse missing =>
    refine blend.eq_of_counts found ?_ ?_
    · rw [if_neg (Nat.lt_irrefl _), if_neg (Nat.lt_asymm longer)]
      omega
    · rw [if_pos (Nat.le_refl _), if_neg (Nat.not_le_of_lt longer)]
      omega

/-- Shorter samples stand at the beginning, and take a place when there are more of them than places before it. -/
theorem place_of_shorter (blend : Blend early old new kept fresh sorted) (shorter : new < old)
    (found : sorted[i]? = some d) (behind : recalcInterval ≤ i) (before : i + recalcInterval ≤ sampleCount) :
    d = if i < fresh then new else old := by
  have ⟨_, _, size, few, pure⟩ := blend
  have samples : sampleCount = 256 := rfl
  have interval : recalcInterval = 16 := rfl
  split
  case isTrue reached =>
    refine blend.eq_of_counts found ?_ ?_
    · rw [if_neg (Nat.lt_asymm shorter), if_neg (Nat.lt_irrefl _)]
      omega
    · rw [if_neg (Nat.not_le_of_lt shorter), if_pos (Nat.le_refl _)]
      omega
  case isFalse missing =>
    refine blend.eq_of_counts found ?_ ?_
    · rw [if_neg (Nat.lt_irrefl _), if_pos shorter]
      omega
    · rw [if_pos (Nat.le_refl _), if_pos (Nat.le_of_lt shorter)]
      omega

end Blend

section Thresholds

variable {config : Config} {before : List Duration} {a b : Duration} {n j : Nat} {e : Estimator}

private theorem Follows.blend (follows : Follows config (before ++ List.replicate n a ++ List.replicate j b) e)
    (many : sampleCount ≤ n) : ∃ early kept, Blend early (inMicros a) (inMicros b) kept
      (min (countedBehind (before.length + n) j) sampleCount) e.snapshot.sorted := by
  obtain ⟨early, kept, shape, size, few, pure⟩ := window_step before a b j many
  have enough : ¬ (before ++ List.replicate n a ++ List.replicate j b).length < recalcInterval := by
    have interval : recalcInterval ≤ sampleCount := by decide
    simp only [List.length_append, List.length_replicate]
    omega
  have full : (window (before ++ List.replicate n a ++ List.replicate j b)).length = sampleCount := by
    rw [shape, List.length_append, List.length_append, List.length_replicate, List.length_replicate, size]
  have published := follows.published
  unfold Published filled at published
  rw [if_neg enough, full, Nat.sub_self, List.replicate_zero, List.append_nil, shape] at published
  obtain ⟨ascending, perm⟩ := published
  simp only [List.map_append, List.map_replicate] at perm
  refine ⟨early.map inMicros, kept, ascending, perm, ?_, ?_, ?_⟩
  · rw [List.length_map, size]
  · rw [List.length_map]
    exact few
  · rw [List.length_map]
    omega

private theorem Follows.thresholds_of_longer (follows : Follows config (before ++ List.replicate n a ++ List.replicate j b) e)
    (many : sampleCount ≤ n) (longer : inMicros a < inMicros b) :
    e.ceiling = (if 26 ≤ countedBehind (before.length + n) j then inMicros b else inMicros a) ∧
      e.baseline = if 231 ≤ countedBehind (before.length + n) j then inMicros b else inMicros a := by
  obtain ⟨early, kept, blend⟩ := follows.blend many
  have ceiling := blend.place_of_longer longer (e.snapshot.getElem?_ceiling follows.published.length) (by decide) (by decide)
  have baseline := blend.place_of_longer longer (e.snapshot.getElem?_baseline follows.published.length) (by decide) (by decide)
  have high (fresh : Nat) : sampleCount ≤ 230 + min fresh sampleCount ↔ 26 ≤ fresh := by rw [sampleCount]; omega
  have low (fresh : Nat) : sampleCount ≤ 25 + min fresh sampleCount ↔ 231 ≤ fresh := by rw [sampleCount]; omega
  simp only [high] at ceiling
  simp only [low] at baseline
  exact ⟨ceiling, baseline⟩

private theorem Follows.thresholds_of_shorter (follows : Follows config (before ++ List.replicate n a ++ List.replicate j b) e)
    (many : sampleCount ≤ n) (shorter : inMicros b < inMicros a) :
    e.baseline = (if 26 ≤ countedBehind (before.length + n) j then inMicros b else inMicros a) ∧
      e.ceiling = if 231 ≤ countedBehind (before.length + n) j then inMicros b else inMicros a := by
  obtain ⟨early, kept, blend⟩ := follows.blend many
  have baseline := blend.place_of_shorter shorter (e.snapshot.getElem?_baseline follows.published.length) (by decide) (by decide)
  have ceiling := blend.place_of_shorter shorter (e.snapshot.getElem?_ceiling follows.published.length) (by decide) (by decide)
  have low (fresh : Nat) : 25 < min fresh sampleCount ↔ 26 ≤ fresh := by rw [sampleCount]; omega
  have high (fresh : Nat) : 230 < min fresh sampleCount ↔ 231 ≤ fresh := by rw [sampleCount]; omega
  simp only [low] at baseline
  simp only [high] at ceiling
  exact ⟨baseline, ceiling⟩

end Thresholds

/-- The recalculation from which on so many samples count comes with one of the next sixteen samples. -/
theorem exists_switch (k needed : Nat) (some : 0 < needed) : ∃ switch, needed ≤ switch ∧ switch ≤ needed + 15 ∧
    (k + switch) % 16 = 0 ∧ ∀ j, needed ≤ countedBehind k j ↔ switch ≤ j := by
  refine ⟨16 * ((k + needed + 15) / 16) - k, by omega, by omega, by omega, fun j => ?_⟩
  rw [countedBehind, recalcInterval]
  omega

/-- After at least 256 samples of one length others follow, and with each sample that completes an interval all that have been
reported so far count. If the new ones are longer, the ceiling is theirs as soon as 26 of them count, and the baseline as soon
as 231 do; if they are shorter, it is the other way round. Until then both are what they were, so 25 outliers change nothing,
and the switches come with a recalculation 26 to 41 and 231 to 246 samples after the step. -/
theorem step_response (config : Config) (prior : List Report) {a b : Duration} {n : Nat} (many : 256 ≤ n)
    (differ : inMicros a ≠ inMicros b) :
    let steady := prior ++ List.replicate n (.sample a)
    let k := (sinceReset steady).length
    let after (j : Nat) := Estimator.ofReports config (steady ++ List.replicate j (.sample b))
    (∀ j, let fresh := 16 * ((k + j) / 16) - k
      (inMicros a < inMicros b →
        (after j).ceiling = (if 26 ≤ fresh then inMicros b else inMicros a) ∧
        (after j).baseline = if 231 ≤ fresh then inMicros b else inMicros a) ∧
      (inMicros b < inMicros a →
        (after j).baseline = (if 26 ≤ fresh then inMicros b else inMicros a) ∧
        (after j).ceiling = if 231 ≤ fresh then inMicros b else inMicros a)) ∧
    (∀ j ≤ 25, (after j).ceiling = inMicros a ∧ (after j).baseline = inMicros a) ∧
    ∃ near far, 26 ≤ near ∧ near ≤ 41 ∧ 231 ≤ far ∧ far ≤ 246 ∧ (k + near) % 16 = 0 ∧ (k + far) % 16 = 0 ∧
      ∀ j, let fresh := 16 * ((k + j) / 16) - k
        (26 ≤ fresh ↔ near ≤ j) ∧ (231 ≤ fresh ↔ far ≤ j) := by
  intro steady k after
  have since : sinceReset steady = sinceReset prior ++ List.replicate n a := by
    rw [← sinceReset_append, List.map_replicate]
  have count : (sinceReset prior).length + n = k := by
    simp only [k, since, List.length_append, List.length_replicate]
  have follows (j : Nat) : Follows config (sinceReset prior ++ List.replicate n a ++ List.replicate j b) (after j) := by
    have told := follows_reports config (steady ++ (List.replicate j b).map Report.sample)
    rw [sinceReset_append, since, List.map_replicate] at told
    exact told
  have longer (j : Nat) := (follows j).thresholds_of_longer many
  have shorter (j : Nat) := (follows j).thresholds_of_shorter many
  rw [count] at longer shorter
  refine ⟨fun j => ⟨longer j, shorter j⟩, fun j few => ?_, ?_⟩
  · have fewer : countedBehind k j ≤ 25 := by
      rw [countedBehind, recalcInterval]
      omega
    rcases Nat.lt_or_gt_of_ne differ with less | greater
    · obtain ⟨ceiling, baseline⟩ := longer j less
      rw [if_neg (by omega)] at ceiling baseline
      exact ⟨ceiling, baseline⟩
    · obtain ⟨baseline, ceiling⟩ := shorter j greater
      rw [if_neg (by omega)] at ceiling baseline
      exact ⟨ceiling, baseline⟩
  · obtain ⟨near, low, high, complete, switch⟩ := exists_switch k 26 (by decide)
    obtain ⟨far, low', high', complete', switch'⟩ := exists_switch k 231 (by decide)
    exact ⟨near, far, low, high, low', high', complete, complete', fun j => ⟨switch j, switch' j⟩⟩

/-- Three samples after a reset, and then as many of 50 ms as are kept. -/
def steadyReports : List Report :=
  [.sample (.ofMillis 9), .reset, .sample (.ofMillis 400), .sample (.ofMillis 1), .sample (.ofMillis 70)] ++
    List.replicate 256 (.sample (.ofMillis 50))

/-- Of the samples of 300 ms that follow, 28 have no effect, and with the 29th the ceiling is theirs. -/
theorem ceiling_steps_up : 256 ≤ 256 ∧ inMicros (.ofMillis 50) ≠ inMicros (.ofMillis 300) ∧
    let after (j : Nat) := Estimator.ofReports {} (steadyReports ++ List.replicate j (.sample (.ofMillis 300)))
    (after 28).ceiling = .ofMillis 50 ∧ (after 29).ceiling = .ofMillis 300 ∧ (after 29).baseline = .ofMillis 50 := by
  have count : (sinceReset steadyReports).length = 259 := by decide +kernel
  have differ : inMicros (.ofMillis 50) ≠ inMicros (.ofMillis 300) := by decide
  obtain ⟨response, -, -⟩ := step_response {}
    [.sample (.ofMillis 9), .reset, .sample (.ofMillis 400), .sample (.ofMillis 1), .sample (.ofMillis 70)]
    (Nat.le_refl 256) differ
  have before := (response 28).1 (by decide)
  have since := (response 29).1 (by decide)
  rw [← steadyReports, count] at before since
  exact ⟨Nat.le_refl 256, differ, before.1, since.1, since.2⟩

end PeerSubstrate.RoundTrip
