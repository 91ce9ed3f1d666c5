import Mathlib.Data.List.Count
import PeerSubstrate.Proofs.Executor.Hands

/-!
# Workers and jobs of the immediate pool

The counter of the immediate pool counts the threads that have a worker's place, and places are given up only above `core` or
when the queue is closed and empty. A job that the queue has accepted is in the queue, or in the hands of a thread that has a
place, or has been run (`Manned`). So nothing is left undone when a closed pool has no workers any more.
-/

namespace PeerSubstrate.Executor.Pool
open PeerSubstrate.Time PeerSubstrate.Concurrency
open Instruction (custody? immediate? weighty)

/-- One if there is such a task, and zero otherwise. -/
def known (record : Option Record) : Nat := record.isSome.toNat

theorem known_of_length {records records' : List Record} (same : records'.length = records.length) (task : Nat) :
    known records'[task]? = known records[task]? := by
  have isKnown : records'[task]?.isSome = records[task]?.isSome := Bool.eq_iff_iff.mpr (by simp [same])
  rw [known, known, isKnown]

/-- How many hold a job of the task. -/
def jobs (task : Nat) (s : System State Own Instruction) : Nat :=
  (holdings s).count (.waiting, task) + (holdings s).count (.bound, task)

private theorem Fares.jobs {task : Nat} {record record' : Option Record} {held held' : List Custody} {events : List Event}
    (fares : Fares task record held record' held' events) :
    held'.count .waiting + held'.count .bound + known record ≤ held.count .waiting + held.count .bound + known record' := by
  cases fares with
  | submitted fresh => cases fresh <;> decide
  | marked | dropped | ended => simp [known, Option.isSome_map]
  | _ => simp [known]

private theorem Accounts.jobs {h h' : Stock} {gone new : List Instruction} {events : List Event} {subject task : Nat}
    {held held' : List Custody} {before after others : Custody × Nat → Nat}
    (accounts : Accounts h gone h' new events subject held held') (heldBefore : ∀ x, before x = (h.held gone).count x + others x)
    (heldAfter : ∀ x, after x = (h'.held new).count x + others x) :
    after (.waiting, task) + after (.bound, task) + known h.records[task]? ≤
      before (.waiting, task) + before (.bound, task) + known h'.records[task]? := by
  obtain ⟨fares, elsewhere, -, balance⟩ := accounts
  have waits := balance (.waiting, task)
  have binds := balance (.bound, task)
  rw [heldBefore, heldBefore, heldAfter, heldAfter]
  by_cases isSubject : task = subject
  · subst isSubject
    have fewer := fares.jobs
    rw [count_map_pair, count_map_pair] at waits binds
    omega
  · rw [count_map_pair_of_ne isSubject, count_map_pair_of_ne isSubject] at waits binds
    rw [elsewhere task isSubject]
    omega

private theorem Alters.staffed {h h' : Stock} {gone new : List Instruction} {events : List Event}
    {steps : List (Immediate.Step Job)}
    (alters : Alters h gone h' new events) (staffed : Immediate.Staffed h.immediate (gone.filterMap immediate? ++ steps)) :
    Immediate.Staffed h'.immediate (new.filterMap immediate? ++ steps) := by
  cases alters with
  | changes changes => exact changes.staffed staffed
  | lapse => exact staffed

private theorem Alters.jobs {h h' : Stock} {gone new : List Instruction} {events : List Event} {task : Nat}
    {before after others : Custody × Nat → Nat} (alters : Alters h gone h' new events)
    (heldBefore : ∀ x, before x = (h.held gone).count x + others x)
    (heldAfter : ∀ x, after x = (h'.held new).count x + others x) :
    after (.waiting, task) + after (.bound, task) + known h.records[task]? ≤
      before (.waiting, task) + before (.bound, task) + known h'.records[task]? := by
  cases alters with
  | changes changes =>
    obtain ⟨subject, held, held', accounts⟩ := changes.accounts
    exact accounts.jobs heldBefore heldAfter
  | lapse entry =>
    -- Only a repeating task is lost.
    rw [heldBefore, heldBefore, heldAfter, heldAfter]
    simp [Stock.count_held]

/-- What holds along every run. Nobody has two places, and the places are counted; a job that has been taken is in hand or has
been run; and as often as a job is anywhere or has been run, there is a task for it. -/
structure Manned (s : System State Own Instruction) (seen : List Deed) : Prop where
  orderly : ∀ thread ∈ s.threads, Orderly thread.todo
  unladen : ∀ thread ∈ s.threads, Unladen thread.todo
  single : ∀ thread ∈ s.threads, places thread.todo ≤ 1
  staffed : Immediate.Staffed s.shared.immediate (s.todo.filterMap immediate?)
  queued : seen.filterMap Deed.accepted? = seen.filterMap Deed.taken? ++ s.shared.immediate.queue.map Job.task
  inHand : ∀ task, (seen.filterMap Deed.taken?).count task ≤
    (seen.filterMap Deed.ran?).count task + (s.threads.flatMap fun thread => handed thread.todo).count task
  once : ∀ task, (seen.filterMap Deed.ran?).count task + jobs task s ≤ known s.shared.records[task]?

section Step

variable {world : World} {before after : List (Thread Own Instruction)} {own : Own} {instruction : Instruction}
  {rest : List Instruction} {effect : Effect State Own Instruction Event} {shared : State} {seen : List Deed}

private theorem Manned.proceeds (manned : Manned ⟨shared, before ++ ⟨own, instruction :: rest⟩ :: after⟩ seen)
    (sound : Sound ⟨shared, before ++ ⟨own, instruction :: rest⟩ :: after⟩)
    (performed : perform world before.length shared own instruction rest = some effect) :
    Proceeds shared.stock instruction rest effect :=
  (manned.orderly _ mem_middle).proceeds (manned.unladen _ mem_middle)
    (fun _ _ _ stores found => sound.running_next stores found) performed

/-- Whoever runs a job holds it no more. -/
theorem jobs_of_run {job : Job} (performed : perform world before.length shared own (.run job) rest = some effect) (task : Nat) :
    [job.task].count task + jobs task ⟨effect.shared, before ++ effect.thread :: (after ++ effect.started)⟩ =
      jobs task ⟨shared, before ++ ⟨own, .run job :: rest⟩ :: after⟩ := by
  obtain ⟨same, none, -, queue, funnel, scheduled⟩ := runs_of_perform performed
  have parts : ((effect.thread.todo ++ effect.started.flatMap Thread.todo).filter weighty).Perm
      ([] ++ rest.filter weighty) := by
    rw [none, List.flatMap_nil, List.append_nil, same]
    exact .refl _
  obtain ⟨others, todoBefore, todoAfter⟩ := @todo_parts before after own (.run job) rest effect shared _ _ _
    weighs_custody parts
  have released : ∀ x, (shared.stock.held (Instruction.run job).gone).count x =
      (effect.shared.stock.held []).count x + [(Custody.bound, job.task)].count x := by
    intro x
    rw [Stock.count_held, Stock.count_held]
    simp only [State.stock, queue, funnel, scheduled]
    rfl
  have one : [(Custody.bound, job.task)].count (.waiting, task) = 0 ∧
      [(Custody.bound, job.task)].count (.bound, task) = [job.task].count task := by
    simp [List.count_singleton]
  rw [jobs, jobs, holdings, holdings, Stock.count_held_of_perm todoBefore, Stock.count_held_of_perm todoBefore,
    Stock.count_held_of_perm todoAfter, Stock.count_held_of_perm todoAfter, released, released, one.1, one.2]
  dsimp only
  omega

/-- A run takes one of those who hold the job, and nobody comes to hold another one without there being a new task. -/
theorem Proceeds.jobs (proceeds : Proceeds shared.stock instruction rest effect)
    (performed : perform world before.length shared own instruction rest = some effect) (task : Nat) :
    (instruction.deed?.toList.filterMap Deed.ran?).count task +
        jobs task ⟨effect.shared, before ++ effect.thread :: (after ++ effect.started)⟩ + known shared.records[task]? ≤
      jobs task ⟨shared, before ++ ⟨own, instruction :: rest⟩ :: after⟩ + known effect.shared.records[task]? := by
  by_cases runs : ∃ job, instruction = .run job
  · obtain ⟨job, rfl⟩ := runs
    have ran : (Instruction.run job).deed?.toList.filterMap Deed.ran? = [job.task] := rfl
    have still := known_of_length (runs_of_perform performed).2.2.1 task
    refine Nat.le_of_eq ?_
    rw [ran, jobs_of_run performed, still]
  · have free : instruction.deed?.toList.filterMap Deed.ran? = [] := by
      cases instruction <;> first | rfl | exact absurd ⟨_, rfl⟩ runs
    obtain ⟨-, -, new, same, alters⟩ := proceeds
    obtain ⟨others, todoBefore, todoAfter⟩ := @todo_parts before after own instruction rest effect shared _ _ _
      weighs_custody same
    have fewer := @Alters.jobs _ _ _ _ _ task _ _ _ alters (Stock.count_held_of_perm todoBefore)
      (Stock.count_held_of_perm todoAfter)
    rw [free, List.count_nil, Nat.zero_add]
    exact fewer

theorem Manned.step (manned : Manned ⟨shared, before ++ ⟨own, instruction :: rest⟩ :: after⟩ seen)
    (sound : Sound ⟨shared, before ++ ⟨own, instruction :: rest⟩ :: after⟩)
    (performed : perform world before.length shared own instruction rest = some effect) :
    Manned ⟨effect.shared, before ++ effect.thread :: (after ++ effect.started)⟩
      (seen ++ deeds instruction effect.events) := by
  have proceeds := manned.proceeds sound performed
  have orderly := manned.orderly _ mem_middle
  have unladen := manned.unladen _ mem_middle
  have delivers := delivers_of_perform orderly unladen performed
  constructor
  case orderly =>
    intro thread member
    rcases mem_threads_iff.mp member with rfl | other | started
    · exact proceeds.orderly
    · exact manned.orderly thread (mem_of_other other)
    · exact proceeds.starts thread started
  case unladen =>
    intro thread member
    rcases mem_threads_iff.mp member with rfl | other | started
    · exact ((goesOn_of_perform performed).spares orderly unladen).1
    · exact manned.unladen thread (mem_of_other other)
    · rw [delivers.starts thread started]
      exact unladen_of_calm (by simp [Instruction.cycles])
  case single =>
    intro thread member
    rcases mem_threads_iff.mp member with rfl | other | started
    · exact Nat.le_trans delivers.place (manned.single _ mem_middle)
    · exact manned.single thread (mem_of_other other)
    · rw [delivers.starts thread started]
      exact Nat.le_refl 1
  case staffed =>
    obtain ⟨-, -, new, same, alters⟩ := proceeds
    obtain ⟨others, todoBefore, todoAfter⟩ := todo_parts weighs_immediate same
    exact (alters.staffed (manned.staffed.perm todoBefore)).perm todoAfter.symm
  case queued =>
    rw [List.filterMap_append, List.filterMap_append, manned.queued, List.append_assoc, delivers.queued, List.append_assoc]
  case inHand =>
    intro task
    have kept := manned.inHand task
    have here := delivers.inHand task
    simp only [List.filterMap_append, List.count_append, List.flatMap_append, List.flatMap_cons] at kept ⊢
    omega
  case once =>
    intro task
    have kept : _ ≤ known shared.records[task]? := manned.once task
    change _ ≤ known effect.shared.records[task]?
    have fewer := @Proceeds.jobs _ before after _ _ _ _ _ proceeds performed task
    rw [List.filterMap_append, ran_deeds, List.count_append]
    omega

end Step

/-! ## Runs -/

section Run

variable {config : Config} {calls : List (List Call)} {world : World} {i : Nat} {s u : System State Own Instruction}
  {seen more : List Deed}

theorem unladen_withClients {thread : Thread Own Instruction} (member : thread ∈ (withClients config calls).threads) :
    Unladen thread.todo := by
  simp only [withClients, initial, List.mem_append, List.mem_cons, List.mem_map] at member
  rcases member with (rfl | ⟨number, -, rfl⟩) | ⟨calls, -, rfl⟩
  · trivial
  · exact ⟨fun _ => rfl, by simp [Instruction.cycles], trivial⟩
  · refine unladen_of_calm fun i member => ?_
    have loose := (light_of_mem_calls member).2
    cases i <;> first | rfl | cases loose

theorem Manned.start (config : Config) (calls : List (List Call)) : Manned (withClients config calls) [] := by
  have secure := Secure.start config calls
  have free : ∀ task, (holdings (withClients config calls)).count (.waiting, task) = 0 ∧
      (holdings (withClients config calls)).count (.bound, task) = 0 := by
    intro task
    have kept := secure.kept task
    exact ⟨kept.1 .waiting, kept.1 .bound⟩
  have apart : ∀ thread ∈ (withClients config calls).threads, thread.todo.filterMap immediate? = [] := by
    intro thread member
    exact List.filterMap_eq_nil_iff.mpr fun i here => immediate_of_initial (initial_withClients member i here)
  constructor
  case orderly => exact secure.orderly
  case unladen => exact fun thread member => unladen_withClients member
  case single =>
    intro thread member
    rw [places, apart thread member]
    exact Nat.zero_le 1
  case staffed => exact secure.staffed
  case queued => rfl
  case inHand => exact fun task => Nat.zero_le _
  case once =>
    intro task
    rw [jobs, (free task).1, (free task).2]
    exact Nat.zero_le _

theorem Manned.run (run : (machine.observe deeds).Run (withClients config calls) s seen) : Manned s seen := by
  induction run with
  | start => exact .start config calls
  | @step t u seen noted world i run stepped ih =>
    obtain ⟨_, plain⟩ := run.of_observe
    have sound := (Sound.start config calls).run plain
    obtain ⟨before, own, instruction, rest, after, _, threads, rfl, observed, rfl, rfl⟩ := Machine.step_eq_some_iff.mp stepped
    obtain ⟨effect, performed, rfl⟩ := Option.map_eq_some_iff.mp observed
    obtain ⟨shared, _⟩ := t
    cases threads
    exact ih.step sound performed

/-- The thread has queued a job, or taken one, and has not decided yet whether the pool grows. -/
def Deciding (thread : Thread Own Instruction) : Prop :=
  ∃ step, thread.todo.head? = some (.immediate step) ∧ step.grows = true

/-- Whoever is about to add a worker has nothing else to do before. -/
theorem exists_deciding (tame : ∀ thread ∈ s.threads, Tame thread.todo.tail) {step : Immediate.Step Job}
    (member : step ∈ s.todo.filterMap immediate?) (adds : step.adds = true) : ∃ thread ∈ s.threads, Deciding thread := by
  obtain ⟨i, isTodo, isStep⟩ := List.mem_filterMap.mp member
  obtain ⟨thread, isThread, here⟩ := List.mem_flatMap.mp isTodo
  rw [immediate?_eq_some_iff.mp isStep] at here
  have tail := tame thread isThread step
  refine ⟨thread, isThread, step, ?_⟩
  cases isList : thread.todo with
  | nil =>
    rw [isList] at here
    cases here
  | cons first later =>
    rw [isList] at here tail
    rcases List.mem_cons.mp here with rfl | behind
    · refine ⟨rfl, ?_⟩
      cases step <;> first | rfl | cases adds
    · rw [tail behind] at adds
      cases adds

namespace Manned

private theorem counted (manned : Manned s seen) : s.shared.immediate.threads = s.threads.countP hasPlace := by
  rw [manned.staffed.counted, ← countP_hasPlace manned.single]
  rfl

/-- Nobody has a job in hand when there are no workers. -/
theorem vacant (manned : Manned s seen) (none : s.shared.immediate.threads = 0) :
    (s.threads.flatMap fun thread => handed thread.todo) = [] := by
  refine List.flatMap_eq_nil_iff.mpr fun thread member => handed_eq_nil ?_
  rw [places_eq (manned.single thread member)]
  have free := List.countP_eq_zero.mp (manned.counted.symm.trans none) thread member
  rw [Bool.eq_false_iff.mpr free]
  rfl

private theorem count_hands_le (threads : List (Thread Own Instruction)) (task : Nat) :
    (threads.flatMap fun thread => handed thread.todo).count task ≤
      ((threads.flatMap Thread.todo).filterMap custody?).count (.bound, task) := by
  induction threads with
  | nil => exact Nat.le_refl 0
  | cons thread threads ih =>
    rw [List.flatMap_cons, List.flatMap_cons, List.filterMap_append, List.count_append, List.count_append]
    exact Nat.add_le_add (count_handed_le thread.todo task) ih

private theorem accepted_once (manned : Manned s seen) (task : Nat) : (seen.filterMap Deed.accepted?).count task ≤ 1 := by
  have queue : (s.shared.immediate.queue.map fun job => (Custody.bound, job.task)).count (.bound, task) =
      (s.shared.immediate.queue.map Job.task).count task := by
    have parts := List.count_map_of_injective (s.shared.immediate.queue.map Job.task) (Custody.bound, ·)
      (fun _ _ same => (Prod.mk.inj same).2) task
    rw [List.map_map] at parts
    exact parts
  have inHand := manned.inHand task
  have hands := count_hands_le s.threads task
  have once := manned.once task
  have held := Stock.count_held s.shared.stock s.todo (.bound, task)
  have bounded : known s.shared.records[task]? ≤ 1 := Bool.toNat_le _
  rw [manned.queued, List.count_append]
  simp only [jobs, holdings, State.stock, System.todo] at *
  omega

/-- No job waits when there are no workers and nobody is about to add one. -/
theorem queue_eq_nil (manned : Manned s seen) (tame : ∀ thread ∈ s.threads, Tame thread.todo.tail)
    (none : s.shared.immediate.threads = 0) (decided : ∀ thread ∈ s.threads, ¬ Deciding thread) :
    s.shared.immediate.queue = [] := by
  refine Classical.byContradiction fun waiting => ?_
  rcases manned.staffed.served waiting with some | ⟨step, member, adds⟩
  · omega
  · obtain ⟨thread, isThread, deciding⟩ := exists_deciding tame member adds
    exact decided thread isThread deciding

private theorem ran_of_accepted (manned : Manned s seen) (tame : ∀ thread ∈ s.threads, Tame thread.todo.tail)
    (none : s.shared.immediate.threads = 0) (decided : ∀ thread ∈ s.threads, ¬ Deciding thread) {task : Nat}
    (accepted : task ∈ seen.filterMap Deed.accepted?) : (seen.filterMap Deed.ran?).count task = 1 := by
  have empty := manned.queue_eq_nil tame none decided
  have inHand := manned.inHand task
  have once := manned.once task
  have bounded : known s.shared.records[task]? ≤ 1 := Bool.toNat_le _
  rw [manned.queued, empty, List.map_nil, List.append_nil] at accepted
  rw [manned.vacant none, List.count_nil] at inHand
  have some := List.count_pos_iff.mpr accepted
  omega

end Manned

private theorem core_of_perform {me : Nat} {shared : State} {own : Own} {instruction : Instruction} {rest : List Instruction}
    {effect : Effect State Own Instruction Event} (performed : perform world me shared own instruction rest = some effect) :
    effect.shared.immediate.core = shared.immediate.core := by
  by_cases other : immediate? instruction = none
  · rcases (aloof_of_perform other performed).pool with same | closed
    · rw [same]
    · rw [closed]
      rfl
  · cases instruction <;> first | exact absurd rfl other | skip
    obtain ⟨⟨immediate, next⟩, performs, rfl⟩ := Option.map_eq_some_iff.mp performed
    exact (Immediate.Shared.leaves_of_perform performs).1

private theorem core_of_run {seen : List Event} (run : machine.Run (withClients config calls) s seen) :
    s.shared.immediate.core = Nat.max config.core 1 := by
  induction run with
  | start => rfl
  | step world i _ stepped ih =>
    obtain ⟨before, own, instruction, rest, after, effect, threads, -, performed, rfl, -⟩ := Machine.step_eq_some_iff.mp stepped
    exact (core_of_perform performed).trans ih

/-- The next instruction of a thread. -/
def nextOf (i : Nat) (s : System State Own Instruction) : Option Instruction := s.threads[i]?.bind (·.todo.head?)

private theorem mem_steps {step : Immediate.Step Job} (next : nextOf i s = some (.immediate step)) :
    step ∈ s.todo.filterMap immediate? := by
  obtain ⟨thread, found, isHead⟩ := Option.bind_eq_some_iff.mp next
  exact List.mem_filterMap.mpr ⟨.immediate step,
    List.mem_flatMap.mpr ⟨thread, List.mem_of_getElem? found, List.mem_of_mem_head? isHead⟩, rfl⟩

/-- Workers become fewer only when one of them has found the queue closed, or when one retires and enough others stay. -/
theorem Manned.fewer {events : List Event} (manned : Manned s seen) (stepped : machine.step world i s = some (u, events))
    (fewer : u.shared.immediate.threads < s.shared.immediate.threads) :
    (∃ counted, nextOf i s = some (.immediate (.retire counted))) ∧ s.shared.immediate.core ≤ u.shared.immediate.threads ∨
      nextOf i s = some (.immediate .stop) := by
  obtain ⟨before, own, instruction, rest, after, effect, threads, index, performed, rfl, -⟩ :=
    Machine.step_eq_some_iff.mp stepped
  have next : nextOf i s = some instruction := by
    rw [nextOf, threads, ← index, getElem?_middle]
    rfl
  by_cases other : immediate? instruction = none
  · rcases (aloof_of_perform other performed).pool with same | closed
    · simp only [same, Nat.lt_irrefl] at fewer
    · simp only [closed] at fewer
      exact absurd fewer (Nat.lt_irrefl _)
  · cases instruction <;> first | exact absurd rfl other | skip
    next step =>
    obtain ⟨⟨immediate, following⟩, performs, rfl⟩ := Option.map_eq_some_iff.mp performed
    rcases (Immediate.Shared.leaves_of_perform performs).2 fewer with ⟨rfl, left⟩ | rfl
    · have extra := manned.staffed.extra _ (mem_steps next)
      refine .inl ⟨⟨_, next⟩, ?_⟩
      change s.shared.immediate.core ≤ immediate.threads
      omega
    · exact .inr next

/-- After a shutdown no job is accepted. -/
theorem closed_run (run : (machine.observe deeds).Run (withClients config calls) s seen)
    (closed : s.shared.immediate.accepting = false) (later : (machine.observe deeds).Run s u more) :
    u.shared.immediate.accepting = false ∧ more.filterMap Deed.accepted? = [] := by
  induction later with
  | start => exact ⟨closed, rfl⟩
  | @step t u more noted world i later stepped ih =>
    have manned := Manned.run (run.trans later)
    obtain ⟨before, own, instruction, rest, after, _, threads, rfl, observed, rfl, rfl⟩ := Machine.step_eq_some_iff.mp stepped
    obtain ⟨effect, performed, rfl⟩ := Option.map_eq_some_iff.mp observed
    have mine : (⟨own, instruction :: rest⟩ : Thread Own Instruction) ∈ t.threads := threads ▸ mem_middle
    have shut := (delivers_of_perform (manned.orderly _ mine) (manned.unladen _ mine) performed).shut ih.1
    rw [List.filterMap_append, ih.2, shut.2]
    exact ⟨shut.1, rfl⟩

/-- Whatever the threads do, the pool counts the workers that have a place, keeps to its limits, and loses a worker only above
`core` or when it is closed and empty. Jobs are taken in the order in which they were accepted, no job is run twice, and none is
accepted after a shutdown. So every job that was accepted has been run, once there are no workers and nobody is about to add
one. -/
theorem jobs_run_by_counted_workers (run : (machine.observe deeds).Run (withClients config calls) s seen) :
    s.shared.immediate.threads = s.threads.countP hasPlace ∧
    s.shared.immediate.threads ≤ Nat.max config.max (Nat.max config.core 1) ∧
    (∀ world i u events, machine.step world i s = some (u, events) →
      u.shared.immediate.threads < s.shared.immediate.threads →
      (∃ counted, nextOf i s = some (.immediate (.retire counted))) ∧ Nat.max config.core 1 ≤ u.shared.immediate.threads ∨
        nextOf i s = some (.immediate .stop)) ∧
    (∀ i, nextOf i s = some (.immediate .stop) → s.shared.immediate.accepting = false ∧ s.shared.immediate.queue = []) ∧
    seen.filterMap Deed.accepted? = seen.filterMap Deed.taken? ++ s.shared.immediate.queue.map Job.task ∧
    (seen.filterMap Deed.accepted?).Nodup ∧ (seen.filterMap Deed.ran?).Nodup ∧
    (s.shared.immediate.accepting = false → ∀ u more, (machine.observe deeds).Run s u more →
      u.shared.immediate.accepting = false ∧ more.filterMap Deed.accepted? = []) ∧
    (s.shared.immediate.threads = 0 → (∀ thread ∈ s.threads, ¬ Deciding thread) →
      s.shared.immediate.queue = [] ∧
      ∀ task ∈ seen.filterMap Deed.accepted?, (seen.filterMap Deed.ran?).count task = 1) := by
  have manned := Manned.run run
  obtain ⟨events, plain⟩ := run.of_observe
  have growing := Growing.run plain
  have core := core_of_run plain
  refine ⟨manned.counted, ?_, ?_, ?_, manned.queued, ?_, ?_, ?_, ?_⟩
  · exact Nat.le_trans growing.overseen.limit (Nat.le_of_eq (threads_le plain).1)
  · intro world i u events stepped fewer
    rw [← core]
    exact manned.fewer stepped fewer
  · exact fun i stops => manned.staffed.closed ⟨.stop, mem_steps stops, rfl⟩
  · exact List.nodup_iff_count.mpr manned.accepted_once
  · refine List.nodup_iff_count.mpr fun task => ?_
    have once := manned.once task
    have bounded : known s.shared.records[task]? ≤ 1 := Bool.toNat_le _
    omega
  · exact fun closed u more later => closed_run run closed later
  · exact fun none decided => ⟨manned.queue_eq_nil growing.tame none decided,
      fun task accepted => manned.ran_of_accepted growing.tame none decided accepted⟩

end Run

/-- One client submits two tasks to a pool of at most two workers, and shuts it down. -/
def twoSubmissions : System State Own Instruction :=
  withClients ⟨1, 2, 1, 0, "pool"⟩ [[.submit .detached "first" [[]], .submit .immediate "second" [[.result 7]], .shutdown]]

/-- A second worker is started while the first one has a task in hand. It runs the second task, waits in vain and retires. The
first one stops after the shutdown. -/
def retiresAndStops : List (World × Nat) :=
  (List.replicate 6 2 ++ List.replicate 7 3 ++ List.replicate 6 2 ++ List.replicate 20 4 ++ List.replicate 2 2 ++
    List.replicate 7 3).map (⟨0, true, []⟩, ·)

/-- Both workers are counted, and in the end both tasks have been run in the order in which they were accepted. -/
theorem both_submissions_run :
    (∃ s seen, (machine.observe deeds).Run twoSubmissions s seen ∧ s.shared.immediate.threads = 2 ∧
      s.threads.countP hasPlace = 2) ∧
    ∃ s seen, (machine.observe deeds).Run twoSubmissions s seen ∧ s.shared.immediate.accepting = false ∧
      s.shared.immediate.threads = 0 ∧ seen.filterMap Deed.taken? = [0, 1] ∧
      ∀ task ∈ [0, 1], (seen.filterMap Deed.ran?).count task = 1 := by
  constructor
  · have grown : ((machine.observe deeds).follow (retiresAndStops.take 19) (twoSubmissions, [])).map
        (fun past => past.1.shared.immediate.threads) = some 2 := rfl
    obtain ⟨⟨s, seen⟩, followed, two⟩ := Option.map_eq_some_iff.mp grown
    have run := Machine.run_of_follow .start followed
    exact ⟨s, seen, run, two, (jobs_run_by_counted_workers run).1.symm.trans two⟩
  · have ends : ((machine.observe deeds).follow retiresAndStops (twoSubmissions, [])).map
        (fun past => (past.1.shared.immediate.accepting, past.1.shared.immediate.threads, past.2.filterMap Deed.accepted?,
          past.1.threads.all fun thread => (thread.todo.head?.bind immediate?).isNone)) = some (false, 0, [0, 1], true) := rfl
    obtain ⟨⟨s, seen⟩, followed, same⟩ := Option.map_eq_some_iff.mp ends
    simp only [Prod.mk.injEq] at same
    obtain ⟨closed, none, accepted, outside⟩ := same
    have run := Machine.run_of_follow .start followed
    have decided : ∀ thread ∈ s.threads, ¬ Deciding thread := by
      rintro thread member ⟨step, isHead, -⟩
      have away := List.all_eq_true.mp outside thread member
      rw [isHead] at away
      cases away
    obtain ⟨-, -, -, -, queued, -, -, -, drained⟩ := jobs_run_by_counted_workers run
    obtain ⟨empty, ran⟩ := drained none decided
    rw [accepted, empty] at queued
    rw [accepted] at ran
    exact ⟨s, seen, run, closed, none, (queued.trans (List.append_nil _)).symm, ran⟩

end PeerSubstrate.Executor.Pool
