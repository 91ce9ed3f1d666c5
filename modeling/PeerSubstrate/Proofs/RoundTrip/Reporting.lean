import PeerSubstrate.Proofs.Concurrency.Run
import PeerSubstrate.Proofs.RoundTrip.Publication

/-!
# Reporting from several threads

Any thread may report round trip times and reset the estimator at any moment. A step is one access to what the threads share:
the cursor, one slot of the ring, or the visible snapshot. Between two steps of a thread the others may do anything. So a
recalculation may read a ring that is just being refilled, or one in which a sample is still missing that has been counted.

A thread that goes on while all others wait does what the estimator does when it is told of one report after another
(`leads_reports`). Whatever the threads do, a recalculation reads each slot once, so that all that is ever visible has as many
elements as samples are kept, and they are in ascending order (`ascending_of_run`).
-/

namespace PeerSubstrate.RoundTrip.Reporting
open PeerSubstrate.Concurrency PeerSubstrate.Time

/-- What a thread has to do. To report a sample it draws a number and puts the sample into its slot; to recalculate it
notes which snapshot is visible, reads the slots one after another and publishes what they hold; to reset it refills the
slots, counts from zero again and shows the seeds. -/
inductive Instruction where
  | update (rtt : Duration)
  | store (number : Nat) (rtt : Duration)
  | prepare
  | collect (replaces : Nat) (read : List Nat)
  | publish (p : Prepared)
  | refill (slot : Nat)
  | restart
  | reseed

/-- How a report begins. -/
def Instruction.ofReport : Report → Instruction
  | .sample rtt => .update rtt
  | .reset => .refill 0

/-- One access, and what the thread goes on with. -/
def access (e : Estimator) : Instruction → Estimator × List Instruction
  | .update rtt => ({ e with cursor := e.cursor + 1 }, [.store e.cursor rtt])
  | .store number rtt =>
    ({ e with samples := e.samples.set (number % sampleCount) rtt.toMicros },
      if (number + 1) % recalcInterval == 0 then [.prepare] else [])
  | .prepare => (e, [.collect e.snapshot.version []])
  | .collect replaces read =>
    let read := read ++ [e.samples.getD read.length 0]
    (e, if read.length < sampleCount then [.collect replaces read]
      else [.publish { replaces, sorted := (read.map Duration.ofMicros).mergeSort }])
  | .publish p => (e.publish p, [])
  | .refill slot =>
    ({ e with samples := e.samples.set slot e.config.maxTimeout.toMicros },
      if slot + 1 < sampleCount then [.refill (slot + 1)] else [.restart])
  | .restart => ({ e with cursor := 0 }, [.reseed])
  | .reseed => ({ e with snapshot := Estimator.seeded e.config (e.snapshot.version + 1) }, [])

/-- Threads that report to one estimator. -/
def machine : Machine Estimator Unit Instruction Empty Unit where
  perform _ _ e own instruction rest :=
    some { shared := (access e instruction).1, thread := ⟨own, (access e instruction).2 ++ rest⟩ }

/-- A new estimator, and threads that have these reports to make. -/
def initial (config : Config) (threads : List (List Report)) : System Estimator Unit Instruction :=
  ⟨.ofConfig config, threads.map fun reports => ⟨(), reports.map .ofReport⟩⟩

/-- A thread comes so far while all others wait. -/
def Leads (e : Estimator) (todo : List Instruction) (e' : Estimator) (todo' : List Instruction) : Prop :=
  ∀ before after, machine.Run ⟨e, before ++ ⟨(), todo⟩ :: after⟩ ⟨e', before ++ ⟨(), todo'⟩ :: after⟩ []

section Leads

variable {e e' e'' : Estimator} {todo todo' todo'' rest : List Instruction} {config : Config} {samples : List Duration}

theorem Leads.refl (e : Estimator) (todo : List Instruction) : Leads e todo e todo := fun _ _ => .start

theorem Leads.trans (one : Leads e todo e' todo') (other : Leads e' todo' e'' todo'') : Leads e todo e'' todo'' :=
  fun before after => (one before after).trans (other before after)

private theorem leads_access (e : Estimator) (instruction : Instruction) (rest : List Instruction) :
    Leads e (instruction :: rest) (access e instruction).1 ((access e instruction).2 ++ rest) := by
  intro before after
  have left : machine.step () before.length ⟨e, before ++ ⟨(), instruction :: rest⟩ :: after⟩ =
      some (⟨(access e instruction).1, before ++ ⟨(), (access e instruction).2 ++ rest⟩ :: after⟩, []) := by
    refine Machine.step_eq_some_iff.mpr ⟨before, (), instruction, rest, after, _, rfl, rfl, rfl, ?_, rfl⟩
    rw [List.append_nil]
  exact Machine.Run.start.step () before.length left

/-- A recalculation that nobody disturbs reads the ring as it is. -/
theorem leads_collect (whole : e.samples.length = sampleCount) (replaces : Nat) (rest : List Instruction) {k : Nat}
    (inside : k < sampleCount) : Leads e (.collect replaces (e.samples.take k) :: rest)
      e (.publish { replaces, sorted := (e.samples.map Duration.ofMicros).mergeSort } :: rest) := by
  obtain ⟨missing, count⟩ : ∃ missing, k + missing + 1 = sampleCount := ⟨sampleCount - k - 1, by omega⟩
  have next {k : Nat} (inside : k < sampleCount) : e.samples.take k ++ [e.samples.getD (e.samples.take k).length 0] =
      e.samples.take (k + 1) := by
    have place : k < e.samples.length := by rw [whole]; exact inside
    rw [List.length_take_of_le (Nat.le_of_lt place), List.getD_eq_getElem?_getD, List.getElem?_eq_getElem place,
      Option.getD_some, List.take_append_getElem]
  induction missing generalizing k with
  | zero =>
    have read := leads_access e (.collect replaces (e.samples.take k)) rest
    have all : e.samples.take (k + 1) = e.samples := List.take_of_length_le (by rw [whole]; omega)
    simp only [access, next inside, all, whole, lt_irrefl, if_false] at read
    exact read
  | succ missing ih =>
    have read := leads_access e (.collect replaces (e.samples.take k)) rest
    simp only [access, next inside] at read
    rw [if_pos (by rw [List.length_take, whole]; omega)] at read
    exact read.trans (ih (by omega) (by omega))

/-- A reset that nobody disturbs refills the whole ring. -/
theorem leads_refill (e : Estimator) (rest : List Instruction) {tail : List Nat} : ∀ {x k : Nat},
    k + tail.length + 1 = sampleCount →
    Leads { e with samples := List.replicate k e.config.maxTimeout.toMicros ++ x :: tail } (.refill k :: rest)
      { e with samples := Estimator.seed e.config } (.restart :: rest) := by
  have next (x k : Nat) (tail : List Nat) (seed : Nat) : (List.replicate k seed ++ x :: tail).set k seed =
      List.replicate (k + 1) seed ++ tail := by
    rw [List.set_append_right _ _ (by simp), List.length_replicate, Nat.sub_self, List.set_cons_zero,
      List.replicate_succ', List.append_assoc, List.singleton_append]
  induction tail with
  | nil =>
    intro x k last
    have written := leads_access { e with samples := List.replicate k e.config.maxTimeout.toMicros ++ [x] } (.refill k) rest
    rw [List.length_nil, Nat.add_zero] at last
    simp only [access, next, last, List.append_nil, lt_irrefl, if_false] at written
    exact written
  | cons y tail ih =>
    intro x k more
    have written := leads_access { e with samples := List.replicate k e.config.maxTimeout.toMicros ++ x :: y :: tail }
      (.refill k) rest
    rw [List.length_cons] at more
    simp only [access, next] at written
    rw [if_pos (by omega)] at written
    exact written.trans (ih (by omega))

private theorem leads_sample (whole : e.samples.length = sampleCount) (rtt : Duration) (rest : List Instruction) :
    Leads e (.update rtt :: rest) (e.update rtt) rest := by
  have recorded : Leads e (.update rtt :: rest) (e.record rtt)
      ((if (e.record rtt).recalcDue then [.prepare] else []) ++ rest) :=
    (leads_access e (.update rtt) rest).trans (leads_access _ (.store e.cursor rtt) rest)
  have size : (e.record rtt).samples.length = sampleCount := (List.length_set ..).trans whole
  rw [Estimator.update]
  split
  case isTrue complete =>
    rw [if_pos complete] at recorded
    have noted := leads_access (e.record rtt) .prepare rest
    have read := leads_collect size (e.record rtt).snapshot.version rest (k := 0) (by decide)
    have published := leads_access (e.record rtt) (.publish (e.record rtt).prepare) rest
    exact recorded.trans (noted.trans (read.trans published))
  case isFalse incomplete =>
    rw [if_neg incomplete] at recorded
    exact recorded

private theorem leads_reset (whole : e.samples.length = sampleCount) (rest : List Instruction) :
    Leads e (.refill 0 :: rest) e.reset rest := by
  obtain ⟨x, tail, split⟩ : ∃ x tail, e.samples = x :: tail := List.exists_cons_of_ne_nil fun none => by
    rw [none] at whole
    cases whole
  have size : 0 + tail.length + 1 = sampleCount := by rw [← whole, split, List.length_cons, Nat.zero_add]
  have refilled := leads_refill e rest (x := x) size
  rw [List.replicate_zero, List.nil_append, ← split] at refilled
  exact refilled.trans ((leads_access _ .restart rest).trans (leads_access _ .reseed rest))

/-- Report after report a thread does what the estimator does that is told of them. -/
theorem leads_reports (follows : Follows config samples e) (reports : List Report) (rest : List Instruction) :
    Leads e (reports.map .ofReport ++ rest) (reports.foldl Estimator.heed e) rest := by
  induction reports generalizing samples e with
  | nil => exact .refl e rest
  | cons report reports ih =>
    have others := ih (follows.heed report)
    cases report with
    | sample rtt => exact (leads_sample follows.rings.length_ring rtt _).trans others
    | reset => exact (leads_reset follows.rings.length_ring _).trans others

/-- Whatever an estimator is told, some thread can have told it. -/
theorem run_reports (config : Config) (reports : List Report) :
    machine.Run (initial config [reports]) ⟨.ofReports config reports, [⟨(), []⟩]⟩ [] := by
  have led := leads_reports (Follows.start config) reports [] [] []
  rw [List.append_nil] at led
  exact led

end Leads

/-- What has been read is less than all, and what is going to be published is in ascending order. -/
def Instruction.Sound : Instruction → Prop
  | .collect _ read => read.length < sampleCount
  | .publish p => Ascending p.sorted
  | .update _ | .store .. | .prepare | .refill _ | .restart | .reseed => True

/-- What is visible is in ascending order, and will be. -/
structure Sound (s : System Estimator Unit Instruction) : Prop where
  visible : Ascending s.shared.snapshot.sorted
  pending : ∀ thread ∈ s.threads, ∀ instruction ∈ thread.todo, instruction.Sound

private theorem sound_access {e : Estimator} {instruction : Instruction} (visible : Ascending e.snapshot.sorted)
    (sound : instruction.Sound) : Ascending (access e instruction).1.snapshot.sorted ∧
      ∀ next ∈ (access e instruction).2, next.Sound := by
  cases instruction with
  | update rtt => exact ⟨visible, by simp [access, Instruction.Sound]⟩
  | store number rtt =>
    refine ⟨visible, fun next found => ?_⟩
    rw [access] at found
    split at found
    · rw [List.mem_singleton.mp found]
      trivial
    · cases found
  | prepare => exact ⟨visible, by simp [access, Instruction.Sound, sampleCount]⟩
  | collect replaces read =>
    refine ⟨visible, fun next found => ?_⟩
    have one : (read ++ [e.samples.getD read.length 0]).length = read.length + 1 := List.length_append
    simp only [access] at found
    split at found
    case isTrue more =>
      rw [List.mem_singleton.mp found]
      exact more
    case isFalse complete =>
      have all : (read ++ [e.samples.getD read.length 0]).length = sampleCount := by
        have some : read.length < sampleCount := sound
        omega
      rw [List.mem_singleton.mp found]
      exact ascending_prepare (e := { e with samples := read ++ [e.samples.getD read.length 0] }) all
  | publish p =>
    refine ⟨?_, by simp [access]⟩
    rw [access]
    obtain ⟨-, published⟩ | ⟨-, published⟩ := publish_cases p e
    · rw [published]
      exact sound
    · rw [published]
      exact visible
  | refill slot =>
    refine ⟨visible, fun next found => ?_⟩
    rw [access] at found
    split at found
    · rw [List.mem_singleton.mp found]
      trivial
    · rw [List.mem_singleton.mp found]
      trivial
  | restart => exact ⟨visible, by simp [access, Instruction.Sound]⟩
  | reseed => exact ⟨ascending_seeded _ _, by simp [access]⟩

private theorem Sound.initial (config : Config) (threads : List (List Report)) : Sound (initial config threads) := by
  refine ⟨ascending_seeded config 0, fun thread found instruction todo => ?_⟩
  obtain ⟨reports, -, rfl⟩ := List.mem_map.mp found
  obtain ⟨report, -, rfl⟩ := List.mem_map.mp todo
  cases report with
  | sample rtt => trivial
  | reset => trivial

/-- All that is ever visible has as many elements as samples are kept, in ascending order. -/
theorem ascending_of_run {config : Config} {threads : List (List Report)} {s : System Estimator Unit Instruction}
    {seen : List Empty} (run : machine.Run (initial config threads) s seen) : Ascending s.shared.snapshot.sorted := by
  have sound : Sound s := run.keeps (Sound.initial config threads) fun {before own instruction rest after effect _ e}
      (sound : Sound ⟨e, before ++ ⟨own, instruction :: rest⟩ :: after⟩) performed => by
    cases performed
    have todo : ∀ other ∈ instruction :: rest, other.Sound := sound.pending ⟨own, instruction :: rest⟩ mem_middle
    obtain ⟨visible, next⟩ := sound_access sound.visible (todo instruction List.mem_cons_self)
    refine ⟨visible, fun thread found => ?_⟩
    rcases mem_threads_iff.mp found with rfl | other | started
    · intro other listed
      rcases List.mem_append.mp listed with new | old
      · exact next other new
      · exact todo other (List.mem_cons_of_mem _ old)
    · exact sound.pending thread (mem_of_other other)
    · cases started
  exact sound.visible

end PeerSubstrate.RoundTrip.Reporting
