import Mathlib.Algebra.Order.Field.Basic
import Mathlib.Data.List.Forall2
import PeerSubstrate.Proofs.RoundTrip.Ranks
import PeerSubstrate.Proofs.RoundTrip.StallTimeout

/-!
# Shorter round trips

Two sessions take the same steps, but in the first one no reported round trip time is longer than in the second. Then they stay
in step: they count alike and number their snapshots alike, so a recalculation is published in the one exactly if it is in the
other. Slot by slot the first ring holds nothing longer than the second, and of what is published as many samples at least are
within any bound (`Session.Ahead`). Sorting does not change such counts, and all answers are read off them
(`answers_monotone`).
-/

namespace PeerSubstrate.RoundTrip
open PeerSubstrate.Time

/-- The same step, but what is reported with it may be shorter. -/
inductive Step.NoLonger : Step → Step → Prop
  | update {quick slow : Duration} (le : quick ≤ slow) : NoLonger (.update quick) (.update slow)
  | record {quick slow : Duration} (le : quick ≤ slow) : NoLonger (.record quick) (.record slow)
  | prepare : NoLonger .prepare .prepare
  | publish (index : Nat) : NoLonger (.publish index) (.publish index)
  | reset : NoLonger .reset .reset

section Lists

variable {α β : Type} {R : α → β → Prop} {xs : List α} {ys : List β} {x : α} {y : β}

private theorem forall₂_set (related : List.Forall₂ R xs ys) (new : R x y) (i : Nat) :
    List.Forall₂ R (xs.set i x) (ys.set i y) := by
  induction related generalizing i with
  | nil => exact .nil
  | cons first others ih =>
    cases i with
    | zero => exact .cons new others
    | succ i => exact .cons first (ih i)

private theorem forall₂_getElem? (related : List.Forall₂ R xs ys) (i : Nat) : Option.Rel R xs[i]? ys[i]? := by
  induction related generalizing i with
  | nil => exact .none
  | cons first others ih =>
    cases i with
    | zero => exact .some first
    | succ i => exact ih i

end Lists

/-- Within any bound there are in the first list as many elements at least as in the second. -/
def Ahead (xs ys : List Duration) : Prop := ∀ d, ys.countP (· ≤ d) ≤ xs.countP (· ≤ d)

section Ahead

variable {xs ys xs' ys' : List Duration}

private theorem Ahead.of_forall₂ (le : List.Forall₂ (· ≤ ·) xs ys) : Ahead xs ys := by
  intro d
  induction le with
  | nil => exact Nat.le_refl _
  | @cons x y xs ys first others ih =>
    rw [List.countP_cons, List.countP_cons]
    by_cases within : y ≤ d
    · simpa [within, Nat.le_trans first within] using ih
    · simpa [within] using Nat.le_add_right_of_le ih

private theorem Ahead.perm (ahead : Ahead xs ys) (left : xs'.Perm xs) (right : ys'.Perm ys) : Ahead xs' ys' := by
  intro d
  rw [left.countP_eq, right.countP_eq]
  exact ahead d

end Ahead

private theorem toMicros_le {d e : Duration} (le : d ≤ e) : d.toMicros ≤ e.toMicros :=
  Nat.le_min.mpr ⟨Nat.le_trans (Nat.min_le_left _ _) (Nat.div_le_div_right le), Nat.min_le_right _ _⟩

/-- The first estimator has counted as many samples as the second and has published as often, and has been told shorter round
trip times, if not the same. -/
structure Estimator.Ahead (e e' : Estimator) : Prop where
  setUp : e.config = e'.config
  cursor : e.cursor = e'.cursor
  version : e.snapshot.version = e'.snapshot.version
  samples : List.Forall₂ (· ≤ ·) e.samples e'.samples
  visible : RoundTrip.Ahead e.snapshot.sorted e'.snapshot.sorted

/-- Of two recalculations that replace the same snapshot the first is ahead. -/
structure Prepared.Ahead (p p' : Prepared) : Prop where
  replaces : p.replaces = p'.replaces
  sorted : RoundTrip.Ahead p.sorted p'.sorted

namespace Estimator.Ahead

variable {e e' : Estimator} {quick slow : Duration} {p p' : Prepared}

protected theorem refl (e : Estimator) : e.Ahead e :=
  ⟨rfl, rfl, rfl, List.forall₂_same.mpr fun _ _ => Nat.le_refl _, fun _ => Nat.le_refl _⟩

private theorem record (ahead : e.Ahead e') (le : quick ≤ slow) : (e.record quick).Ahead (e'.record slow) where
  setUp := ahead.setUp
  cursor := congrArg (· + 1) ahead.cursor
  version := ahead.version
  samples := by
    simp only [Estimator.record, ahead.cursor]
    exact forall₂_set ahead.samples (toMicros_le le) _
  visible := ahead.visible

private theorem prepare (ahead : e.Ahead e') : e.prepare.Ahead e'.prepare where
  replaces := ahead.version
  sorted := by
    have durations : List.Forall₂ (· ≤ ·) (e.samples.map Duration.ofMicros) (e'.samples.map Duration.ofMicros) := by
      rw [List.forall₂_map_left_iff, List.forall₂_map_right_iff]
      exact ahead.samples.imp fun _ _ le => Nat.mul_le_mul_right 1000 le
    exact (RoundTrip.Ahead.of_forall₂ durations).perm (prepare_sorted e).2 (prepare_sorted e').2

private theorem publish (ahead : e.Ahead e') (prepared : p.Ahead p') : (e.publish p).Ahead (e'.publish p') := by
  have alike : e.snapshot.version = p.replaces ↔ e'.snapshot.version = p'.replaces := by
    rw [ahead.version, prepared.replaces]
  unfold Estimator.publish
  by_cases valid : e.snapshot.version = p.replaces
  · rw [if_pos valid, if_pos (alike.mp valid)]
    exact ⟨ahead.setUp, ahead.cursor, congrArg (· + 1) ahead.version, ahead.samples, prepared.sorted⟩
  · rw [if_neg valid, if_neg fun valid' => valid (alike.mpr valid')]
    exact ahead

private theorem update (ahead : e.Ahead e') (le : quick ≤ slow) : (e.update quick).Ahead (e'.update slow) := by
  have recorded := ahead.record le
  have alike : (e.record quick).recalcDue = (e'.record slow).recalcDue := by
    rw [recalcDue, recalcDue, recorded.cursor]
  simp only [Estimator.update, alike]
  split
  · exact recorded.publish recorded.prepare
  · exact recorded

/-- A reset leaves nothing of what has been told. -/
theorem reset (ahead : e.Ahead e') : e.reset.Ahead e'.reset := by
  have same : e.reset = e'.reset := by rw [Estimator.reset, Estimator.reset, ahead.setUp, ahead.version]
  rw [same]
  exact Estimator.Ahead.refl _

end Estimator.Ahead

/-- Of two sessions in step the first is ahead, and so is each of its recalculations. -/
structure Session.Ahead (s s' : Session) : Prop where
  estimator : s.estimator.Ahead s'.estimator
  prepared : List.Forall₂ Prepared.Ahead s.prepared s'.prepared

namespace Session.Ahead

variable {s s' : Session} {one other : Step} {quick slow : List Step}

theorem step (ahead : s.Ahead s') (noLonger : one.NoLonger other) : (s.step one).Ahead (s'.step other) := by
  obtain ⟨estimator, prepared⟩ := ahead
  cases noLonger with
  | update le => exact ⟨estimator.update le, prepared⟩
  | record le => exact ⟨estimator.record le, prepared⟩
  | prepare => exact ⟨estimator, List.rel_append prepared (.cons estimator.prepare .nil)⟩
  | publish index =>
    refine ⟨?_, prepared⟩
    have found := forall₂_getElem? prepared index
    rw [Session.step, Session.step]
    generalize s.prepared[index]? = p, s'.prepared[index]? = p' at found ⊢
    cases found with
    | none => exact estimator
    | some same => exact estimator.publish same
  | reset => exact ⟨estimator.reset, prepared⟩

theorem run (ahead : s.Ahead s') (noLonger : List.Forall₂ Step.NoLonger quick slow) : (s.run quick).Ahead (s'.run slow) := by
  induction noLonger generalizing s s' with
  | nil => exact ahead
  | cons first _ ih => exact ih (ahead.step first)

end Session.Ahead

section Answers

variable {e e' : Estimator}

/-- What has a sum with the longer baseline has one with the shorter one. -/
theorem Estimator.stallTimeout_le (setUp : e.config = e'.config) (baseline : e.baseline ≤ e'.baseline)
    (ceiling : e.ceiling ≤ e'.ceiling) {t' : Duration} (told : e'.stallTimeout = .ok t') :
    ∃ t, e.stallTimeout = .ok t ∧ t ≤ t' := by
  have fits' : e'.baseline + e'.config.minMargin ≤ Duration.longest := by
    refine Nat.le_of_not_lt fun exceeds => ?_
    rw [Estimator.stallTimeout_eq_error.mpr exceeds] at told
    cases told
  have raised : e.baseline + e.config.minMargin ≤ e'.baseline + e'.config.minMargin := by
    rw [setUp]
    exact Nat.add_le_add_right baseline _
  rw [Estimator.stallTimeout_of_le fits'] at told
  cases told
  refine ⟨_, Estimator.stallTimeout_of_le (Nat.le_trans raised fits'), ?_⟩
  rw [setUp] at raised ⊢
  exact min_le_min_right _ (max_le_max raised ceiling)

end Answers

/-- Two sessions of the same length that are reset at the same points, and in which no round trip time of the first is longer
than the one reported at its point in the second: the thresholds of the first are no longer, it has a stall timeout wherever
the second has one, and that is no longer either, and an answer within any time is at least as likely. -/
theorem answers_monotone (config : Config) {quick slow : List Step} (noLonger : List.Forall₂ Step.NoLonger quick slow) :
    let e := (Session.after config quick).estimator
    let e' := (Session.after config slow).estimator
    e.ceiling ≤ e'.ceiling ∧ e.baseline ≤ e'.baseline ∧
      (∀ t', e'.stallTimeout = .ok t' → ∃ t, e.stallTimeout = .ok t ∧ t ≤ t') ∧
      ∀ elapsed, e'.completionProbability elapsed ≤ e.completionProbability elapsed := by
  intro e e'
  have start : Session.Ahead ⟨.ofConfig config, []⟩ ⟨.ofConfig config, []⟩ := ⟨Estimator.Ahead.refl _, .nil⟩
  have ahead : e.Ahead e' := (start.run noLonger).estimator
  have visible : Ascending e.snapshot.sorted := (Session.sound_after config quick).visible
  have visible' : Ascending e'.snapshot.sorted := (Session.sound_after config slow).visible
  have ceiling : e.ceiling ≤ e'.ceiling := (Estimator.ceiling_le_iff visible).mpr
    (Nat.le_trans ((Estimator.ceiling_le_iff visible').mp (Nat.le_refl _)) (ahead.visible _))
  have baseline : e.baseline ≤ e'.baseline := (Estimator.baseline_le_iff visible).mpr
    (Nat.le_trans ((Estimator.baseline_le_iff visible').mp (Nat.le_refl _)) (ahead.visible _))
  refine ⟨ceiling, baseline, fun t' told => Estimator.stallTimeout_le ahead.setUp baseline ceiling told, fun elapsed => ?_⟩
  rw [Estimator.completionProbability_eq visible, Estimator.completionProbability_eq visible']
  exact div_le_div_of_nonneg_right (Nat.cast_le.mpr (ahead.visible elapsed)) (by norm_num)

/-- After a recalculation that a reset has made stale, two complete intervals of round trips that get longer and longer. -/
def risingRoundTrips (first slope : Nat) : List Step :=
  [.update (.ofMillis first), .prepare, .reset, .publish 0] ++
    (List.range 32).map fun i => .update (.ofMillis (first + slope * i))

/-- Round trips that begin at 20 ms and get longer by 1 ms each, and others that begin at 30 ms and get longer by 2 ms. -/
theorem rising_round_trips_compared : List.Forall₂ Step.NoLonger (risingRoundTrips 20 1) (risingRoundTrips 30 2) ∧
    let e := (Session.after {} (risingRoundTrips 20 1)).estimator
    let e' := (Session.after {} (risingRoundTrips 30 2)).estimator
    e.ceiling ≤ e'.ceiling ∧ e.baseline ≤ e'.baseline ∧
      (∀ t', e'.stallTimeout = .ok t' → ∃ t, e.stallTimeout = .ok t ∧ t ≤ t') ∧
      e'.completionProbability (.ofMillis 45) ≤ e.completionProbability (.ofMillis 45) := by
  have noLonger : List.Forall₂ Step.NoLonger (risingRoundTrips 20 1) (risingRoundTrips 30 2) := by
    refine List.rel_append (.cons (.update (by decide)) (.cons .prepare (.cons .reset (.cons (.publish 0) .nil)))) ?_
    rw [List.forall₂_map_left_iff, List.forall₂_map_right_iff, List.forall₂_same]
    exact fun i _ => .update (Nat.mul_le_mul_right 1000000 (by omega))
  obtain ⟨ceiling, baseline, stall, likelier⟩ := answers_monotone {} noLonger
  exact ⟨noLonger, ceiling, baseline, stall, likelier _⟩

end PeerSubstrate.RoundTrip
