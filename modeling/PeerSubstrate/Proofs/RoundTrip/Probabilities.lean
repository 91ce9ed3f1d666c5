import Mathlib.Data.Rat.Cast.Order
import Mathlib.Tactic.NormNum
import Mathlib.Tactic.Ring
import PeerSubstrate.Proofs.RoundTrip.Ranks
import PeerSubstrate.Proofs.RoundTrip.Reporting
import PeerSubstrate.Proofs.RoundTrip.StallTimeout

/-!
# Probabilities

In every state that any number of threads can bring an estimator to, its probabilities are those of the visible samples
(`probabilities_of_run`): of the 256 of them the bisection counts exactly those that are no longer than a request has waited,
and 231 or 26 of them are so exactly if the ceiling or the baseline is.
-/

namespace PeerSubstrate.RoundTrip
open PeerSubstrate.Concurrency PeerSubstrate.Time

section Parts

variable {e : Estimator} {elapsed longer : Duration}

private theorem Estimator.flightProbability_eq (visible : Ascending e.snapshot.sorted) :
    e.flightProbability elapsed = (e.snapshot.sorted.countP (elapsed < ·) : Rat) / 256 := by
  have split := e.snapshot.sorted.length_eq_countP_add_countP (· ≤ elapsed)
  have others : e.snapshot.sorted.countP (fun d => decide ¬ decide (d ≤ elapsed) = true) =
      e.snapshot.sorted.countP (elapsed < ·) := List.countP_congr fun d _ => by simp
  rw [visible.2, others] at split
  have whole : (e.snapshot.sorted.countP (· ≤ elapsed) : Rat) + (e.snapshot.sorted.countP (elapsed < ·) : Rat) = 256 := by
    exact_mod_cast split.symm
  rw [flightProbability, completionProbability_eq visible, eq_div_iff (by norm_num), sub_mul,
    div_mul_cancel₀ _ (by norm_num), ← whole]
  ring

private theorem Estimator.completionProbability_mono (visible : Ascending e.snapshot.sorted) (le : elapsed ≤ longer) :
    e.completionProbability elapsed ≤ e.completionProbability longer := by
  have more : e.snapshot.sorted.countP (· ≤ elapsed) ≤ e.snapshot.sorted.countP (· ≤ longer) :=
    List.countP_mono_left fun d _ within => by simpa using Nat.le_trans (by simpa using within) le
  rw [completionProbability_eq visible, completionProbability_eq visible]
  exact div_le_div_of_nonneg_right (Nat.cast_le.mpr more) (by norm_num)

private theorem Estimator.le_completionProbability_iff (visible : Ascending e.snapshot.sorted) (parts : Nat) :
    (parts : Rat) / 256 ≤ e.completionProbability elapsed ↔ parts ≤ e.snapshot.sorted.countP (· ≤ elapsed) := by
  rw [completionProbability_eq visible, div_le_div_iff_of_pos_right (by norm_num), Nat.cast_le]

end Parts

/-- Whatever any threads report and wherever they are with it: an answer within some time is as likely as the samples that are
no longer are many among the 256 visible ones, an answer after it as those that are longer, and the two probabilities add up to
one. With more time an answer gets no less likely. Its probability is at least 231/256 exactly from the ceiling on, and at
least 26/256 exactly from the baseline on. -/
theorem probabilities_of_run {config : Config} {threads : List (List Report)}
    {s : System Estimator Unit Reporting.Instruction} {seen : List Empty}
    (run : Reporting.machine.Run (Reporting.initial config threads) s seen) (elapsed : Duration) :
    let e := s.shared
    e.snapshot.sorted.length = 256 ∧
      e.completionProbability elapsed = (e.snapshot.sorted.countP (· ≤ elapsed) : Rat) / 256 ∧
      e.flightProbability elapsed = (e.snapshot.sorted.countP (elapsed < ·) : Rat) / 256 ∧
      e.flightProbability elapsed = 1 - e.completionProbability elapsed ∧
      (∀ longer, elapsed ≤ longer → e.completionProbability elapsed ≤ e.completionProbability longer) ∧
      (231 / 256 ≤ e.completionProbability elapsed ↔ e.ceiling ≤ elapsed) ∧
      (26 / 256 ≤ e.completionProbability elapsed ↔ e.baseline ≤ elapsed) := by
  intro e
  have visible : Ascending e.snapshot.sorted := Reporting.ascending_of_run run
  refine ⟨visible.2, Estimator.completionProbability_eq visible, Estimator.flightProbability_eq visible, rfl,
    fun longer le => Estimator.completionProbability_mono visible le, ?_, ?_⟩
  · rw [Estimator.ceiling_le_iff visible]
    exact_mod_cast Estimator.le_completionProbability_iff visible 231
  · rw [Estimator.baseline_le_iff visible]
    exact_mod_cast Estimator.le_completionProbability_iff visible 26

/-- One interval of samples of 50 ms. -/
def shortInterval : List Report := List.replicate 16 (.sample (.ofMillis 50))

/-- Sixteen of the visible samples are no longer, so an answer is not likely enough for either threshold. -/
theorem probability_of_short_interval :
    ∃ s seen, Reporting.machine.Run (Reporting.initial {} [shortInterval]) s seen ∧
      s.shared.completionProbability (.ofMillis 50) = 16 / 256 ∧ ¬ s.shared.baseline ≤ .ofMillis 50 := by
  have run := Reporting.run_reports {} shortInterval
  obtain ⟨-, completion, -, -, -, -, baseline⟩ := probabilities_of_run run (.ofMillis 50)
  have published := (follows_reports {} shortInterval).published
  unfold Published at published
  rw [if_neg (by decide +kernel)] at published
  have count : (Estimator.ofReports {} shortInterval).snapshot.sorted.countP (· ≤ .ofMillis 50) = 16 := by
    rw [published.2.countP_eq]
    decide +kernel
  rw [count] at completion
  refine ⟨_, _, run, completion, fun within => ?_⟩
  have enough := baseline.mpr within
  rw [completion] at enough
  norm_num at enough

end PeerSubstrate.RoundTrip
