import PeerSubstrate.Proofs.RoundTrip.Window

/-!
# Recalculations that overlap

Between the two steps of a recalculation anything may happen: samples, resets, and steps of other recalculations. A session
has the estimator and all recalculations that have been prepared, and any of them can be published at any time, more than once
if need be.

Each snapshot has a number that no earlier one had. So a recalculation is published exactly if the snapshot that it is meant to
replace has not been replaced since (`run_version_eq`), however much another one may look like it. A reset makes all
recalculations stale that have been prepared until then (`Outdated`), and what is visible has the thresholds of a sorted list
whoever published it (`Session.Sound`). What a recalculation reads are the samples since the last reset, whatever else is under way
(`Session.prepare_after`), and the thresholds change when it is published (`Session.thresholds_of_publication`).
-/

namespace PeerSubstrate.RoundTrip
open PeerSubstrate.Time

/-- What can happen to an estimator. A recalculation is prepared and published at once by the sample that completes an interval,
or else in two steps, of which the second one says which recalculation it is about. -/
inductive Step where
  | update (rtt : Duration)
  | record (rtt : Duration)
  | prepare
  | publish (index : Nat)
  | reset
  deriving DecidableEq

/-- The estimator, and the recalculations prepared in steps of their own, in the order in which they were prepared. -/
structure Session where
  estimator : Estimator
  prepared : List Prepared
  deriving DecidableEq

namespace Session

/-- The session after one more step. -/
def step (s : Session) : Step → Session
  | .update rtt => { s with estimator := s.estimator.update rtt }
  | .record rtt => { s with estimator := s.estimator.record rtt }
  | .prepare => { s with prepared := s.prepared ++ [s.estimator.prepare] }
  | .publish index => { s with estimator := (s.prepared[index]?).elim s.estimator fun p => s.estimator.publish p }
  | .reset => { s with estimator := s.estimator.reset }

/-- The session after all steps. -/
def run (s : Session) (steps : List Step) : Session := steps.foldl step s

/-- The session after all steps, from the beginning. -/
def after (config : Config) (steps : List Step) : Session := run ⟨.ofConfig config, []⟩ steps

/-- With this step another snapshot becomes visible. -/
def Replaces (s : Session) (step : Step) : Prop :=
  (s.step step).estimator.snapshot.version ≠ s.estimator.snapshot.version

private theorem after_append (config : Config) (earlier : List Step) (step : Step) (later : List Step) :
    after config (earlier ++ step :: later) = ((after config earlier).step step).run later :=
  List.foldl_append

end Session

section Step

variable {s : Session} {step : Step}

/-- A publication finds the snapshot it is meant to replace, or it changes nothing. -/
theorem publish_cases (p : Prepared) (e : Estimator) :
    (e.snapshot.version = p.replaces ∧ e.publish p = { e with snapshot := ⟨e.snapshot.version + 1, p.sorted⟩ }) ∨
      (e.snapshot.version ≠ p.replaces ∧ e.publish p = e) := by
  rw [Estimator.publish]
  split
  case isTrue found => exact .inl ⟨found, rfl⟩
  case isFalse gone => exact .inr ⟨gone, rfl⟩

/-- A sample is recorded, and if it completes an interval what is then in the ring is published. -/
theorem update_cases (rtt : Duration) (e : Estimator) :
    ((e.record rtt).recalcDue = true ∧ e.update rtt =
      { e.record rtt with snapshot := ⟨e.snapshot.version + 1, (e.record rtt).prepare.sorted⟩ }) ∨
      ((e.record rtt).recalcDue = false ∧ e.update rtt = e.record rtt) := by
  rw [Estimator.update]
  split
  case isTrue complete =>
    exact .inl ⟨complete, by simp [Estimator.recalculate, Estimator.publish, Estimator.prepare, Estimator.record]⟩
  case isFalse incomplete => exact .inr ⟨by simpa using incomplete, rfl⟩

/-- A snapshot that becomes visible has the next number, and otherwise the visible one stays as it is. -/
theorem Session.step_cases (s : Session) (step : Step) :
    (s.step step).estimator.snapshot = s.estimator.snapshot ∨
      (s.step step).estimator.snapshot.version = s.estimator.snapshot.version + 1 := by
  cases step with
  | update rtt =>
    obtain ⟨-, updated⟩ | ⟨-, updated⟩ := update_cases rtt s.estimator
    · exact .inr (by rw [Session.step, updated])
    · exact .inl (by rw [Session.step, updated]; rfl)
  | record rtt => exact .inl rfl
  | prepare => exact .inl rfl
  | publish index =>
    cases found : s.prepared[index]? with
    | none => exact .inl (by rw [Session.step, found]; rfl)
    | some p =>
      obtain ⟨-, published⟩ | ⟨-, published⟩ := publish_cases p s.estimator
      · exact .inr (by rw [Session.step, found, Option.elim_some, published])
      · exact .inl (by rw [Session.step, found, Option.elim_some, published])
  | reset => exact .inr rfl

private theorem Session.snapshot_of_not_replaces (kept : ¬ s.Replaces step) :
    (s.step step).estimator.snapshot = s.estimator.snapshot :=
  (s.step_cases step).resolve_right fun next => kept (by rw [Session.Replaces, next]; exact Nat.succ_ne_self _)

private theorem Session.version_le_step : s.estimator.snapshot.version ≤ (s.step step).estimator.snapshot.version := by
  obtain same | next := s.step_cases step
  · rw [same]
  · exact Nat.le_of_lt (next ▸ Nat.lt_succ_self _)

private theorem Session.replaces_reset : s.Replaces .reset := Nat.succ_ne_self _

private theorem Session.not_replaces_prepare : ¬ s.Replaces .prepare := not_not_intro rfl

private theorem Session.not_replaces_record {rtt : Duration} : ¬ s.Replaces (.record rtt) := not_not_intro rfl

/-- A sample replaces the snapshot if it completes an interval. -/
theorem Session.replaces_update {rtt : Duration} :
    s.Replaces (.update rtt) ↔ (s.estimator.record rtt).recalcDue = true := by
  rw [Session.Replaces, Session.step]
  obtain ⟨complete, updated⟩ | ⟨incomplete, updated⟩ := update_cases rtt s.estimator
  · rw [updated]
    exact iff_of_true (Nat.succ_ne_self _) complete
  · rw [updated, incomplete]
    exact iff_of_false (not_not_intro rfl) Bool.false_ne_true

/-- A publication replaces the snapshot if that is the one which its recalculation found. -/
theorem Session.replaces_publish {index : Nat} {p : Prepared} (found : s.prepared[index]? = some p) :
    s.Replaces (.publish index) ↔ s.estimator.snapshot.version = p.replaces := by
  rw [Session.Replaces, Session.step, found, Option.elim_some]
  obtain ⟨valid, published⟩ | ⟨stale, published⟩ := publish_cases p s.estimator
  · rw [published]
    exact iff_of_true (Nat.succ_ne_self _) valid
  · rw [published]
    exact iff_of_false (not_not_intro rfl) stale

/-- What has been prepared stays. -/
theorem Session.prepared_step : s.prepared <+: (s.step step).prepared := by
  cases step with
  | prepare => exact List.prefix_append _ _
  | _ => exact List.prefix_rfl

end Step

namespace Session

variable {s : Session} {steps : List Step}

private theorem version_le_run : s.estimator.snapshot.version ≤ (s.run steps).estimator.snapshot.version := by
  induction steps generalizing s with
  | nil => exact Nat.le_refl _
  | cons step steps ih => exact Nat.le_trans version_le_step ih

private theorem prepared_run : s.prepared <+: (s.run steps).prepared := by
  induction steps generalizing s with
  | nil => exact List.prefix_rfl
  | cons step steps ih => exact prepared_step.trans ih

/-- The number of the visible snapshot is still the same exactly if no step has replaced it. -/
theorem run_version_eq : (s.run steps).estimator.snapshot.version = s.estimator.snapshot.version ↔
    ∀ earlier step later, steps = earlier ++ step :: later → ¬ (s.run earlier).Replaces step := by
  induction steps generalizing s with
  | nil =>
    refine iff_of_true rfl fun earlier step later split => ?_
    cases List.append_ne_nil_of_right_ne_nil earlier (List.cons_ne_nil step later) split.symm
  | cons first steps ih =>
    have once : s.estimator.snapshot.version ≤ (s.step first).estimator.snapshot.version := version_le_step
    have rest : (s.step first).estimator.snapshot.version ≤ ((s.step first).run steps).estimator.snapshot.version :=
      version_le_run
    constructor
    · intro same earlier step later split
      change ((s.step first).run steps).estimator.snapshot.version = _ at same
      have kept : (s.step first).estimator.snapshot.version = s.estimator.snapshot.version := by omega
      cases earlier with
      | nil =>
        cases split
        exact not_not_intro kept
      | cons head earlier =>
        cases split
        exact ih.mp (by omega) earlier step later rfl
    · intro none
      have kept : (s.step first).estimator.snapshot.version = s.estimator.snapshot.version :=
        congrArg Snapshot.version (snapshot_of_not_replaces (none [] first steps rfl))
      exact (ih.mpr fun earlier step later split => none (first :: earlier) step later (by rw [split]; rfl)).trans kept

/-- A recalculation that has just been prepared can be found at its place from then on. -/
theorem prepared_found (s : Session) (steps : List Step) :
    ((s.step .prepare).run steps).prepared[s.prepared.length]? = some s.estimator.prepare := by
  obtain ⟨new, split⟩ : (s.step .prepare).prepared <+: ((s.step .prepare).run steps).prepared := prepared_run
  rw [← split, step, List.append_assoc, List.getElem?_append_right (Nat.le_refl _), Nat.sub_self]
  rfl

/-- A recalculation is published exactly if no step has replaced the visible snapshot since it was prepared. -/
theorem replaces_publish_iff (s : Session) (between : List Step) :
    ((s.step .prepare).run between).Replaces (.publish s.prepared.length) ↔
      ∀ earlier step later, between = earlier ++ step :: later → ¬ ((s.step .prepare).run earlier).Replaces step :=
  (replaces_publish (prepared_found s between)).trans run_version_eq

/-- What becomes visible is what was prepared. -/
theorem sorted_publish {index : Nat} {p : Prepared} (found : s.prepared[index]? = some p)
    (replaces : s.Replaces (.publish index)) : (s.step (.publish index)).estimator.snapshot.sorted = p.sorted := by
  have valid := (replaces_publish found).mp replaces
  rw [step, found, Option.elim_some, Estimator.publish, if_pos valid]

/-- A stale publication changes nothing. -/
theorem step_publish_of_stale {index : Nat} (kept : ¬ s.Replaces (.publish index)) : s.step (.publish index) = s := by
  rw [step]
  cases found : s.prepared[index]? with
  | none => rfl
  | some p =>
    have stale : s.estimator.snapshot.version ≠ p.replaces := fun valid => kept ((replaces_publish found).mpr valid)
    rw [Option.elim_some, Estimator.publish, if_neg stale]

end Session

/-! ## Reachable sessions -/

/-- As many samples as are kept, in ascending order. -/
def Ascending (sorted : List Duration) : Prop := sorted.Pairwise (· ≤ ·) ∧ sorted.length = sampleCount

/-- The estimator was set up like this, its ring is whole, whatever is or may become visible is in ascending order, and no
recalculation is ahead of its time. -/
structure Session.Sound (config : Config) (s : Session) : Prop where
  setUp : s.estimator.config = config
  ring : s.estimator.samples.length = sampleCount
  visible : Ascending s.estimator.snapshot.sorted
  prepared : ∀ p ∈ s.prepared, Ascending p.sorted ∧ p.replaces ≤ s.estimator.snapshot.version

section Sound

variable {config : Config} {s : Session} {steps : List Step}

theorem ascending_seeded (config : Config) (version : Nat) : Ascending (Estimator.seeded config version).sorted :=
  ⟨List.pairwise_replicate.mpr (.inr (Nat.le_refl _)), List.length_replicate⟩

theorem ascending_prepare {e : Estimator} (ring : e.samples.length = sampleCount) : Ascending e.prepare.sorted := by
  obtain ⟨pairwise, perm⟩ := prepare_sorted e
  exact ⟨pairwise, by rw [perm.length_eq, List.length_map, ring]⟩

theorem Session.Sound.start (config : Config) : Session.Sound config ⟨.ofConfig config, []⟩ :=
  ⟨rfl, List.length_replicate, ascending_seeded config 0, by simp⟩

/-- What has been prepared is still not ahead of its time when the snapshot has been replaced. -/
theorem Session.Sound.older (sound : s.Sound config) (step : Step) :
    ∀ p ∈ s.prepared, Ascending p.sorted ∧ p.replaces ≤ (s.step step).estimator.snapshot.version := fun p found =>
  ⟨(sound.prepared p found).1, Nat.le_trans (sound.prepared p found).2 version_le_step⟩

theorem Session.Sound.step (sound : s.Sound config) (step : Step) : (s.step step).Sound config := by
  have older := sound.older step
  cases step with
  | update rtt =>
    have ring : (s.estimator.record rtt).samples.length = sampleCount := (List.length_set ..).trans sound.ring
    rw [Session.step] at older ⊢
    obtain ⟨-, updated⟩ | ⟨-, updated⟩ := update_cases rtt s.estimator
    · rw [updated] at older ⊢
      exact ⟨sound.setUp, ring, ascending_prepare ring, older⟩
    · rw [updated] at older ⊢
      exact ⟨sound.setUp, ring, sound.visible, older⟩
  | record rtt => exact ⟨sound.setUp, (List.length_set ..).trans sound.ring, sound.visible, older⟩
  | prepare =>
    refine ⟨sound.setUp, sound.ring, sound.visible, fun p found => ?_⟩
    obtain old | new := List.mem_append.mp found
    · exact sound.prepared p old
    · rw [List.mem_singleton.mp new]
      exact ⟨ascending_prepare sound.ring, Nat.le_refl _⟩
  | publish index =>
    rw [Session.step] at older ⊢
    cases found : s.prepared[index]? with
    | none => exact ⟨sound.setUp, sound.ring, sound.visible, sound.prepared⟩
    | some p =>
      rw [found, Option.elim_some] at older
      rw [Option.elim_some]
      obtain ⟨-, published⟩ | ⟨-, published⟩ := publish_cases p s.estimator
      · rw [published] at older ⊢
        exact ⟨sound.setUp, sound.ring, (sound.prepared p (List.mem_of_getElem? found)).1, older⟩
      · rw [published]
        exact sound
  | reset => exact ⟨sound.setUp, List.length_replicate, ascending_seeded _ _, older⟩

theorem Session.Sound.run (sound : s.Sound config) : (s.run steps).Sound config := by
  induction steps generalizing s with
  | nil => exact sound
  | cons step steps ih => exact ih (sound.step step)

theorem Session.sound_after (config : Config) (steps : List Step) : (Session.after config steps).Sound config :=
  (Session.Sound.start config).run

end Sound

/-! ## What a recalculation reads -/

/-- The samples since the last reset when there is one more step, whatever is published with it. -/
def Step.append (samples : List Duration) : Step → List Duration
  | .update rtt | .record rtt => samples ++ [rtt]
  | .prepare | .publish _ => samples
  | .reset => []

section Rings

variable {config : Config} {samples : List Duration} {s : Session}

private theorem Session.rings_step (rings : Rings config samples s.estimator) (step : Step) :
    Rings config (step.append samples) (s.step step).estimator := by
  cases step with
  | update rtt =>
    have recorded : Rings config (samples ++ [rtt]) (s.estimator.record rtt) := rings.record
    obtain ⟨-, updated⟩ | ⟨-, updated⟩ := update_cases rtt s.estimator
    · rw [Session.step, updated]
      exact ⟨recorded.setUp, recorded.cursor, recorded.ring⟩
    · rw [Session.step, updated]
      exact recorded
  | record rtt => exact rings.record
  | prepare => exact rings
  | publish index =>
    rw [Session.step]
    cases s.prepared[index]? with
    | none => exact rings
    | some p =>
      rw [Option.elim_some]
      obtain ⟨-, published⟩ | ⟨-, published⟩ := publish_cases p s.estimator
      · rw [published]
        exact ⟨rings.setUp, rings.cursor, rings.ring⟩
      · rw [published]
        exact rings
  | reset => exact rings.reset

private theorem Session.rings_run (rings : Rings config samples s.estimator) (steps : List Step) :
    Rings config (steps.foldl Step.append samples) (s.run steps).estimator := by
  induction steps generalizing samples s with
  | nil => exact rings
  | cons step steps ih => exact ih (rings_step rings step)

private theorem Session.rings_after (config : Config) (steps : List Step) :
    Rings config (steps.foldl Step.append []) (after config steps).estimator := by
  have start : Rings config [] (⟨.ofConfig config, []⟩ : Session).estimator := (Follows.start config).rings
  exact rings_run start steps

/-- However many recalculations overlap, each reads the latest samples since the last reset, cut off to whole microseconds, and
the longest timeout in place of those that are missing. -/
theorem Session.prepare_after (config : Config) (steps : List Step) :
    let samples := steps.foldl Step.append []
    let sorted := (after config steps).estimator.prepare.sorted
    sorted.Pairwise (· ≤ ·) ∧ sorted.Perm ((samples.drop (samples.length - sampleCount)).map inMicros ++
      List.replicate (sampleCount - samples.length) (inMicros config.maxTimeout)) :=
  (rings_after config steps).prepared

/-- Samples that are recorded and not yet published do not show. -/
theorem Session.run_records (s : Session) (rtts : List Duration) :
    (s.run (rtts.map .record)).prepared = s.prepared ∧
      (s.run (rtts.map .record)).estimator.snapshot = s.estimator.snapshot := by
  induction rtts generalizing s with
  | nil => exact ⟨rfl, rfl⟩
  | cons rtt rtts ih => exact ih (s.step (.record rtt))

private theorem Step.append_records (samples rtts : List Duration) :
    (rtts.map .record).foldl append samples = samples ++ rtts := by
  induction rtts generalizing samples with
  | nil => exact (List.append_nil samples).symm
  | cons rtt rtts ih => exact (ih (samples ++ [rtt])).trans (List.append_assoc ..)

/-- A ring whose latest samples are all the same, as many as are kept, is read as that. -/
theorem Rings.prepared_of_same {rtt : Duration} {count : Nat} {e : Estimator}
    (rings : Rings config (samples ++ List.replicate count rtt) e) (many : sampleCount ≤ count) :
    e.prepare.sorted = List.replicate sampleCount (inMicros rtt) := by
  have latest : (samples ++ List.replicate count rtt).drop ((samples ++ List.replicate count rtt).length - sampleCount) =
      List.replicate sampleCount rtt := by
    rw [List.length_append, List.length_replicate, List.drop_append, List.drop_eq_nil_of_le (by omega), List.nil_append,
      List.drop_replicate]
    congr 1
    omega
  have whole : sampleCount - (samples ++ List.replicate count rtt).length = 0 := by
    rw [List.length_append, List.length_replicate]
    omega
  obtain ⟨-, perm⟩ := rings.prepared
  rw [latest, whole, List.map_replicate, List.replicate_zero, List.append_nil] at perm
  exact List.perm_replicate.mp perm

/-- A publication changes the thresholds. When as many equal samples have been recorded as are kept, the thresholds still are
what they were before, and they are these samples as soon as a recalculation is published that was prepared after them. -/
theorem Session.thresholds_of_publication (config : Config) (before : List Step) (rtt : Duration) {count : Nat}
    (many : sampleCount ≤ count) :
    let s := after config before
    let filled := (s.run ((List.replicate count rtt).map .record)).step .prepare
    let shown := filled.step (.publish s.prepared.length)
    filled.estimator.ceiling = s.estimator.ceiling ∧ filled.estimator.baseline = s.estimator.baseline ∧
      shown.estimator.ceiling = inMicros rtt ∧ shown.estimator.baseline = inMicros rtt := by
  intro s filled shown
  obtain ⟨prepared, snapshot⟩ := s.run_records (List.replicate count rtt)
  have rings := rings_run (rings_after config before) ((List.replicate count rtt).map .record)
  rw [Step.append_records] at rings
  have found := prepared_found (s.run ((List.replicate count rtt).map .record)) []
  rw [prepared] at found
  have sorted : shown.estimator.snapshot.sorted = List.replicate sampleCount (inMicros rtt) :=
    (sorted_publish found ((replaces_publish found).mpr rfl)).trans (rings.prepared_of_same many)
  exact ⟨congrArg Snapshot.ceiling snapshot, congrArg Snapshot.baseline snapshot, Snapshot.thresholds_of_replicate sorted⟩

end Rings

/-! ## After a reset -/

/-- What is published with this step was prepared when there had been so many recalculations already. -/
def Step.PublishesSince (count : Nat) : Step → Prop
  | .update _ => True
  | .publish index => count ≤ index
  | .record _ | .prepare | .reset => False

/-- All that is visible are seeds, and the first recalculations are stale. -/
structure Outdated (config : Config) (count : Nat) (s : Session) : Prop where
  seeded : s.estimator.snapshot.sorted = List.replicate sampleCount config.maxTimeout
  many : count ≤ s.prepared.length
  stale : ∀ index < count, ∀ p, s.prepared[index]? = some p → p.replaces < s.estimator.snapshot.version

section Outdated

variable {config : Config} {count : Nat} {s : Session}

private theorem Outdated.of_reset (sound : s.Sound config) : Outdated config s.prepared.length (s.step .reset) where
  seeded := by rw [Session.step, Estimator.reset, sound.setUp]; rfl
  many := Nat.le_refl _
  stale _ _ p found := Nat.lt_succ_of_le (sound.prepared p (List.mem_of_getElem? found)).2

/-- It stays like this until a later recalculation is published. -/
theorem Outdated.step (outdated : Outdated config count s) (sound : s.Sound config) (step : Step) :
    (step.PublishesSince count ∧ s.Replaces step) ∨ Outdated config count (s.step step) := by
  have grown : s.prepared <+: (s.step step).prepared := Session.prepared_step
  have many : count ≤ (s.step step).prepared.length := Nat.le_trans outdated.many grown.length_le
  have stale : ∀ index < count, ∀ p, (s.step step).prepared[index]? = some p →
      p.replaces < (s.step step).estimator.snapshot.version := by
    intro index first p found
    obtain ⟨new, split⟩ := grown
    rw [← split, List.getElem?_append_left (Nat.lt_of_lt_of_le first outdated.many)] at found
    exact Nat.lt_of_lt_of_le (outdated.stale index first p found) Session.version_le_step
  by_cases replaces : s.Replaces step
  case neg => exact .inr ⟨by rw [Session.snapshot_of_not_replaces replaces, outdated.seeded], many, stale⟩
  case pos =>
    cases step with
    | update rtt => exact .inl ⟨trivial, replaces⟩
    | record rtt => exact absurd replaces Session.not_replaces_record
    | prepare => exact absurd replaces Session.not_replaces_prepare
    | reset => exact .inr ⟨by rw [Session.step, Estimator.reset, sound.setUp]; rfl, many, stale⟩
    | publish index =>
      refine .inl ⟨Nat.le_of_not_lt fun first => ?_, replaces⟩
      cases found : s.prepared[index]? with
      | none => exact replaces (by rw [Session.step, found]; rfl)
      | some p =>
        have valid := (Session.replaces_publish found).mp replaces
        exact Nat.ne_of_gt (outdated.stale index first p found) valid

theorem Outdated.run (outdated : Outdated config count s) (sound : s.Sound config) (steps : List Step) :
    (∃ earlier step later, steps = earlier ++ step :: later ∧
        step.PublishesSince count ∧ (s.run earlier).Replaces step) ∨
      Outdated config count (s.run steps) := by
  induction steps generalizing s with
  | nil => exact .inr outdated
  | cons first steps ih =>
    obtain ⟨later, replaces⟩ | still := outdated.step sound first
    · exact .inl ⟨[], first, steps, rfl, later, replaces⟩
    · refine (ih still (sound.step first)).imp_left ?_
      rintro ⟨earlier, step, later, rfl, published⟩
      exact ⟨first :: earlier, step, later, rfl, published⟩

end Outdated

/-- Sessions in which recalculations overlap. The steps that replace the visible snapshot are resets, the last sample of an
interval, and publications: a recalculation that was prepared earlier is published exactly if no step has replaced the
snapshot since, and what it has prepared becomes visible; otherwise its publication changes nothing. After a reset all
thresholds are the longest timeout unless a recalculation has been published that was prepared later. What is visible is
always in ascending order, and the ceiling and the baseline are two elements of it. -/
theorem publication (config : Config) :
    (∀ steps rtt, let s := Session.after config steps
      s.Replaces .reset ∧ (s.Replaces (.update rtt) ↔ (s.estimator.record rtt).recalcDue = true) ∧
        ¬ s.Replaces (.record rtt) ∧ ¬ s.Replaces .prepare) ∧
    (∀ before between, let index := (Session.after config before).prepared.length
      let s := Session.after config (before ++ .prepare :: between)
      (s.Replaces (.publish index) ↔ ∀ earlier step later, between = earlier ++ step :: later →
        ¬ (Session.after config (before ++ .prepare :: earlier)).Replaces step) ∧
      (s.Replaces (.publish index) →
        (s.step (.publish index)).estimator.snapshot.sorted = (Session.after config before).estimator.prepare.sorted) ∧
      (¬ s.Replaces (.publish index) → s.step (.publish index) = s)) ∧
    (∀ before later, let s := Session.after config (before ++ .reset :: later)
      (∃ earlier step rest, later = earlier ++ step :: rest ∧
        step.PublishesSince (Session.after config before).prepared.length ∧
        (Session.after config (before ++ .reset :: earlier)).Replaces step) ∨
      (s.estimator.snapshot.sorted = List.replicate 256 config.maxTimeout ∧
        s.estimator.ceiling = config.maxTimeout ∧ s.estimator.baseline = config.maxTimeout)) ∧
    (∀ steps, let e := (Session.after config steps).estimator
      e.snapshot.sorted.Pairwise (· ≤ ·) ∧ e.snapshot.sorted.length = 256 ∧
        e.snapshot.sorted[230]? = some e.ceiling ∧ e.snapshot.sorted[25]? = some e.baseline) := by
  refine ⟨fun steps rtt => ?replacing, fun before between => ?publishing, fun before later => ?resetting,
    fun steps => ?visible⟩
  case replacing =>
    exact ⟨Session.replaces_reset, Session.replaces_update, Session.not_replaces_record, Session.not_replaces_prepare⟩
  case publishing =>
    simp only [Session.after_append]
    exact ⟨Session.replaces_publish_iff _ between, Session.sorted_publish (Session.prepared_found _ between),
      Session.step_publish_of_stale⟩
  case resetting =>
    have sound := Session.sound_after config before
    simp only [Session.after_append]
    refine ((Outdated.of_reset sound).run (sound.step .reset) later).imp_right fun outdated => ?_
    exact ⟨outdated.seeded, Snapshot.thresholds_of_replicate outdated.seeded⟩
  case visible =>
    have visible := (Session.sound_after config steps).visible
    exact ⟨visible.1, visible.2, Snapshot.getElem?_ceiling visible.2, Snapshot.getElem?_baseline visible.2⟩

end PeerSubstrate.RoundTrip
