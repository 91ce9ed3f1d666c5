import PeerSubstrate.Proofs.Executor.Shutdown
import PeerSubstrate.Proofs.Executor.Scripts

/-!
# Repeating tasks

Somebody holds a repeating task at most once: the scheduled queue, a thread that is about to queue it, to run it or to
end it, or a thread that runs it (`holdings_repeating`). What the scripts of a task have done is accounted for all along
a run of the pool (`Rounds`), and a task that is done or has panicked does not begin to run again (`Stopped`).
-/

namespace PeerSubstrate.Executor.Pool
open PeerSubstrate.Time PeerSubstrate.Concurrency
open Instruction (custody? frames straight)

/-- A thread is about to queue the task, to run it or to end it. -/
def Instruction.carries (task : Nat) : Instruction → Bool
  | .draw _ (.periodic repeated) _ | .push ⟨_, _, .periodic repeated⟩ | .abandon (.periodic repeated) => repeated.task == task
  | .fire entry | .recheck entry | .renew entry => entry.task.task == task
  | _ => false

/-- The entries of the task in the scheduled queue, -/
def queued (task : Nat) (s : System State Own Instruction) : Nat :=
  s.shared.scheduled.queue.countP (·.task.custody == (.repeating, task))

/-- those in the hands of threads that are about to queue it, to run it or to end it, -/
def carried (task : Nat) (s : System State Own Instruction) : Nat := s.todo.countP (Instruction.carries task)

/-- and those of threads that run it, until the run is counted or the task is ended by a panic. -/
def executing (task : Nat) (s : System State Own Instruction) : Nat := s.todo.countP (Instruction.counts task)

private theorem repeating_straight {i : Instruction} (isStraight : i.straight = true) (task : Nat) :
    (custody? i).toList.count (.repeating, task) = (i.carries task).toNat + (i.counts task).toNat := by
  have repeated : ∀ other : Nat, [(Custody.repeating, other)].count (.repeating, task) = (other == task).toNat := by
    intro other
    by_cases same : other = task
    · simp [same]
    · simp [same, beq_eq_false_iff_ne.mpr same]
  cases i with
  | draw deadline work =>
    cases work with
    | once => rfl
    | periodic => exact repeated _
  | abandon work =>
    cases work with
    | once => rfl
    | periodic => exact repeated _
  | push entry =>
    obtain ⟨deadline, seq, work⟩ := entry
    cases work with
    | once => rfl
    | periodic => exact repeated _
  | funnel step =>
    cases step with
    | acquire entry | enqueue entry =>
      obtain ⟨deadline, seq, work⟩ := entry
      cases work with
      | once => rfl
      | periodic => cases isStraight
    | _ => rfl
  | fire entry | recheck entry | renew entry => exact repeated _
  | count entry => exact (repeated _).trans (Nat.zero_add _).symm
  | immediate step =>
    cases step with
    | unpark received => cases received <;> rfl
    | _ => rfl
  | _ => rfl

private theorem todo_repeating {todo : List Instruction} (straights : ∀ i ∈ todo, i.straight = true) (task : Nat) :
    (todo.filterMap custody?).count (.repeating, task) =
      todo.countP (Instruction.carries task) + todo.countP (Instruction.counts task) := by
  induction todo with
  | nil => rfl
  | cons i todo ih =>
    obtain ⟨here, others⟩ := List.forall_mem_cons.mp straights
    have one := repeating_straight here task
    have parts : (i :: todo).filterMap custody? = (custody? i).toList ++ todo.filterMap custody? := by
      rw [List.filterMap_cons]
      cases custody? i <;> rfl
    rw [parts, List.count_append, one, ih others, List.countP_cons, List.countP_cons]
    cases i.carries task <;> cases i.counts task <;> simp <;> omega

/-- Those who hold a repeating task. -/
theorem holdings_repeating {s : System State Own Instruction} (straights : ∀ i ∈ s.todo, i.straight = true)
    (once : ∀ entry ∈ s.shared.funnel.queue, ∃ job, entry.task = .once job) (task : Nat) :
    (holdings s).count (.repeating, task) = queued task s + carried task s + executing task s := by
  have bound : (s.shared.immediate.queue.map fun job => (Custody.bound, job.task)).count (.repeating, task) = 0 := by
    rw [List.count_eq_zero]
    simp
  have funnelled : (s.shared.funnel.queue.map (·.task.custody)).count (.repeating, task) = 0 := by
    rw [List.count_eq_zero]
    intro member
    obtain ⟨entry, here, same⟩ := List.mem_map.mp member
    obtain ⟨job, isOnce⟩ := once entry here
    simp [isOnce, Work.custody] at same
  have inQueue : (s.shared.scheduled.queue.map (·.task.custody)).count (.repeating, task) = queued task s := by
    rw [List.count_eq_countP, List.countP_map]
    rfl
  have held := Stock.count_held s.shared.stock s.todo (.repeating, task)
  rw [todo_repeating straights] at held
  rw [holdings, carried, executing, held]
  simp only [State.stock, bound, funnelled, inQueue]
  omega

theorem mem_holdings {s : System State Own Instruction} {i : Instruction} {held : Custody × Nat} (member : i ∈ s.todo)
    (holds : custody? i = some held) : held ∈ holdings s :=
  List.mem_append_right _ (List.mem_filterMap.mpr ⟨i, member, holds⟩)

section Changes

variable {task : Nat} {record record' : Option Record} {held held' : List Custody}

/-- Nobody else comes to hold a repeating task. -/
theorem Fares.once {before after : Custody → Nat} {events : List Event} (fares : Fares task record held record' held' events)
    (unsubmitted : record = none → before .repeating = 0)
    (balance : after .repeating + held.count .repeating = before .repeating + held'.count .repeating)
    (once : before .repeating ≤ 1) : after .repeating ≤ 1 := by
  cases fares with
  | submitted fresh =>
    have free := unsubmitted rfl
    cases fresh <;> simp at balance <;> omega
  | _ =>
    simp at balance
    omega

private theorem Accounts.once {h h' : Stock} {gone new : List Instruction} {events : List Event} {subject task : Nat}
    {before after others : Custody × Nat → Nat} (accounts : Accounts h gone h' new events subject held held')
    (heldBefore : ∀ x, before x = (h.held gone).count x + others x)
    (heldAfter : ∀ x, after x = (h'.held new).count x + others x)
    (unsubmitted : h.records[task]? = none → before (.repeating, task) = 0) (once : before (.repeating, task) ≤ 1) :
    after (.repeating, task) ≤ 1 := by
  obtain ⟨fares, -, -, balance⟩ := accounts
  have moved := balance (.repeating, task)
  by_cases isSubject : task = subject
  · subst isSubject
    rw [count_map_pair, count_map_pair] at moved
    refine @Fares.once task _ _ _ _ (fun kind => before (kind, task)) (fun kind => after (kind, task)) _ fares unsubmitted ?_ once
    simp only [heldBefore, heldAfter]
    omega
  · rw [count_map_pair_of_ne isSubject, count_map_pair_of_ne isSubject] at moved
    rw [heldBefore] at once
    rw [heldAfter]
    omega

end Changes

/-! ## What the scripts of a task have done -/

/-- The runs of a repeating task that have been counted. -/
def counted : Option Record → Nat
  | some (.periodic state) => state.runs
  | _ => 0

/-- The runs of the task that have come to their end, and are still to be counted. -/
def dues (task : Nat) (s : System State Own Instruction) : Nat := s.threads.countP (due task)

/-- The repeating task is done, -/
def Done (task : Nat) (s : System State Own Instruction) : Prop :=
  ∃ state, s.shared.records[task]? = some (.periodic state) ∧ state.done = true

/-- or it will be, since its script has panicked. -/
def Stopped (task : Nat) (s : System State Own Instruction) : Prop :=
  Done task s ∨ ∃ thread ∈ s.threads, awaited task thread.todo = true ∧ thread.own.outcome.toBool = false

/-- A repeating task is held at most once, and wherever it may run the run is counted afterwards. -/
structure Single (s : System State Own Instruction) : Prop where
  framed : ∀ thread ∈ s.threads, Framed s.shared.records thread.todo
  straights : ∀ i ∈ s.todo, i.straight = true
  funnel : ∀ entry ∈ s.shared.funnel.queue, ∃ job, entry.task = .once job
  once : ∀ task, (holdings s).count (.repeating, task) ≤ 1

/-- Scripts begin and end by turns, runs that have come to their end are counted, and no script begins after a panic,
unless the task is one that does not repeat. -/
structure Rounds (s : System State Own Instruction) (seen : List Event) : Prop where
  single : Single s
  balance : ∀ task, seen.countP (Event.begins task) = seen.countP (Event.ends task) + s.todo.countP (Instruction.runs task)
  credit : ∀ task, ¬ Plain s.shared.records task →
    seen.countP (Event.completes task) = counted s.shared.records[task]? + dues task s
  fallen : ∀ task, ¬ Plain s.shared.records task → .ended task false ∈ seen →
    Stopped task s ∧ s.todo.countP (Instruction.runs task) = 0

theorem countP_cons_toNat {α : Type} (p : α → Bool) (a : α) (l : List α) : (a :: l).countP p = (p a).toNat + l.countP p := by
  rw [List.countP_cons]
  cases p a <;> simp [Nat.add_comm]

section Threads

variable {records : List Record} {threads before after started : List (Thread Own Instruction)} {one : Thread Own Instruction}
  {shared : State} {s : System State Own Instruction} {seen : List Event} {task : Nat}

theorem countP_todo (p : Instruction → Bool) : (System.todo ⟨shared, before ++ one :: after⟩).countP p =
    one.todo.countP p + ((before ++ after).flatMap Thread.todo).countP p := by
  simp only [System.todo, List.flatMap_append, List.flatMap_cons, List.countP_append]
  omega

/-- Every script of a repeating task that is running, and every run that has come to its end, is followed by the count of
that run. -/
theorem runs_le_counts (framed : ∀ thread ∈ threads, Framed records thread.todo) (repeats : ¬ Plain records task) :
    (threads.flatMap Thread.todo).countP (Instruction.runs task) + threads.countP (due task) ≤
      (threads.flatMap Thread.todo).countP (Instruction.counts task) := by
  induction threads with
  | nil => exact Nat.le_refl 0
  | cons thread threads ih =>
    obtain ⟨here, others⟩ := List.forall_mem_cons.mp framed
    have within := here.countP_le repeats
    have beyond := ih others
    have one : (due task thread).toNat ≤ (awaited task thread.todo).toNat := by
      unfold due
      cases thread.own.outcome.toBool
      · exact Nat.zero_le _
      · exact Nat.le_refl _
    rw [countP_cons_toNat, List.flatMap_cons, List.countP_append, List.countP_append]
    omega

/-- While a thread is about to count a run of the task, no script of the task is running. -/
theorem none_runs_of_awaited (framed : ∀ thread ∈ threads, Framed records thread.todo) (repeats : ¬ Plain records task)
    (few : (threads.flatMap Thread.todo).countP (Instruction.counts task) ≤ 1) {thread : Thread Own Instruction}
    (member : thread ∈ threads) (next : awaited task thread.todo = true) :
    (threads.flatMap Thread.todo).countP (Instruction.counts task) = 1 ∧
      (threads.flatMap Thread.todo).countP (Instruction.runs task) = 0 := by
  obtain ⟨before, after, rfl⟩ := List.append_of_mem member
  have within := (framed thread member).countP_le repeats
  have beyond := runs_le_counts (fun other there => framed other (mem_of_other there)) repeats
  rw [next, Bool.toNat_true] at within
  simp only [List.flatMap_append, List.flatMap_cons, List.countP_append] at few beyond ⊢
  omega

namespace Single

private theorem place (single : Single s) (task : Nat) : queued task s + carried task s + executing task s ≤ 1 := by
  rw [← holdings_repeating single.straights single.funnel]
  exact single.once task

private theorem runs_le (single : Single s) (repeats : ¬ Plain s.shared.records task) :
    s.todo.countP (Instruction.runs task) + dues task s ≤ executing task s := runs_le_counts single.framed repeats

private theorem awaits (single : Single s) (repeats : ¬ Plain s.shared.records task) {thread : Thread Own Instruction}
    (member : thread ∈ s.threads) (next : awaited task thread.todo = true) :
    executing task s = 1 ∧ s.todo.countP (Instruction.runs task) = 0 :=
  none_runs_of_awaited single.framed repeats (Nat.le_of_add_left_le (single.place task)) member next

end Single

end Threads

private theorem count_of_awaited {task : Nat} {todo : List Instruction} (next : awaited task todo = true) :
    ∃ entry, .count entry ∈ todo ∧ entry.task.task = task := by
  induction todo with
  | nil => cases next
  | cons i todo ih =>
    cases i with
    | publish =>
      obtain ⟨entry, member, same⟩ := ih next
      exact ⟨entry, List.mem_cons_of_mem _ member, same⟩
    | count entry =>
      refine ⟨entry, List.mem_cons_self, ?_⟩
      by_contra others
      simp [awaited, counted?, others] at next
    | _ => cases next

section Secure

variable {s : System State Own Instruction} {seen : List Event} {task : Nat}

private theorem Secure.plain (secure : Secure s seen) {job : Job} (member : .run job ∈ s.todo) :
    Plain s.shared.records job.task := by
  have held : 0 < (holdings s).count (.bound, job.task) := List.count_pos_iff.mpr (mem_holdings member rfl)
  obtain ⟨-, ⟨found, -⟩ | ⟨cell, found, -⟩⟩ := (secure.kept job.task).unrun (by omega)
  · exact ⟨_, found, fun _ => Record.noConfusion⟩
  · exact ⟨_, found, fun _ => Record.noConfusion⟩

private theorem Secure.repeats (secure : Secure s seen) {i : Instruction} (member : i ∈ s.todo)
    (holds : custody? i = some (.repeating, task)) : ∃ state, s.shared.records[task]? = some (.periodic state) :=
  (secure.kept task).repeated (List.count_pos_iff.mpr (mem_holdings member holds))

theorem periodic?_eq_some_iff {shared : State} {state : PeriodicState} :
    shared.periodic? task = some state ↔ shared.records[task]? = some (.periodic state) := by
  unfold State.periodic?
  split
  · next found => rw [found, Option.some.injEq, Option.some.injEq, Record.periodic.injEq]
  · next other => exact ⟨nofun, fun found => absurd found (other state)⟩

theorem not_plain {records : List Record} {state : PeriodicState} (found : records[task]? = some (.periodic state)) :
    ¬ Plain records task := by
  rintro ⟨record, same, noRepeat⟩
  rw [found] at same
  exact noRepeat state (Option.some.inj same).symm

end Secure

section Step

variable {world : World} {before after : List (Thread Own Instruction)} {own : Own} {instruction : Instruction}
  {rest : List Instruction} {effect : Effect State Own Instruction Event} {shared : State} {seen : List Event} {task : Nat}

theorem todo_mem : instruction ∈ System.todo ⟨shared, before ++ ⟨own, instruction :: rest⟩ :: after⟩ :=
  List.mem_flatMap.mpr ⟨⟨own, instruction :: rest⟩, by simp, List.mem_cons_self⟩

/-- Runs are still counted right after their scripts. -/
theorem Acts.framed (acts : Acts shared own instruction rest effect)
    (framed : ∀ thread ∈ before ++ ⟨own, instruction :: rest⟩ :: after, Framed shared.records thread.todo) :
    ∀ thread ∈ before ++ effect.thread :: (after ++ effect.started), Framed effect.shared.records thread.todo := by
  intro thread member
  rcases mem_threads_iff.mp member with rfl | other | started
  · exact (acts.plays.framed (framed ⟨own, instruction :: rest⟩ (by simp))).mono (Grows.plain_mono acts.grows)
  · exact (framed thread (mem_of_other other)).mono (Grows.plain_mono acts.grows)
  · exact framed_light fun i here => (acts.starts thread started i here).1

theorem Single.step (single : Single ⟨shared, before ++ ⟨own, instruction :: rest⟩ :: after⟩)
    (secure : Secure ⟨shared, before ++ ⟨own, instruction :: rest⟩ :: after⟩ seen)
    (continues : Continues shared.stock instruction rest effect) (acts : Acts shared own instruction rest effect) :
    Single ⟨effect.shared, before ++ effect.thread :: (after ++ effect.started)⟩ := by
  have isStraight : instruction.straight = true := single.straights instruction todo_mem
  constructor
  case framed => exact acts.framed single.framed
  case straights =>
    intro i member
    obtain ⟨thread, isThread, here⟩ := List.mem_flatMap.mp member
    rcases mem_threads_iff.mp isThread with rfl | other | started
    · rcases acts.straight isStraight i here with old | new
      · exact single.straights i (List.mem_flatMap.mpr ⟨⟨own, instruction :: rest⟩, by simp, List.mem_cons_of_mem _ old⟩)
      · exact new
    · exact single.straights i (List.mem_flatMap.mpr ⟨thread, mem_of_other other, here⟩)
    · exact (acts.starts thread started i here).2
  case funnel =>
    intro entry member
    rcases acts.funnel entry member with old | rfl
    · exact single.funnel entry old
    · cases isTask : entry.task with
      | once job => exact ⟨job, rfl⟩
      | periodic => simp [straight, isTask] at isStraight
  case once =>
    intro task
    obtain ⟨-, -, new, same, changes⟩ := continues
    obtain ⟨subject, held, held', accounts⟩ := changes.accounts
    obtain ⟨others, todoBefore, todoAfter⟩ := @todo_parts before after own instruction rest effect shared _ _ _
      weighs_custody same
    refine accounts.once (Stock.count_held_of_perm todoBefore) (Stock.count_held_of_perm todoAfter) (fun unsubmitted => ?_)
      (single.once task)
    have kept := secure.kept task
    rw [show shared.records[task]? = none from unsubmitted] at kept
    exact kept.1 .repeating

/-- A panic ends the task. -/
theorem done_of_failed {me : Nat} {entry : Scheduled.Entry Periodic} {state : PeriodicState}
    (performed : perform world me shared own (.count entry) rest = some effect) (failed : own.outcome.toBool = false)
    (found : shared.records[entry.task.task]? = some (.periodic state)) :
    effect.shared.records[entry.task.task]? = some (.periodic { state with done := true }) := by
  simp only [perform] at performed
  split at performed
  · cases performed
    rw [modifyPeriodic_records, List.getElem?_modify_eq, found]
    rfl
  · next ok =>
    rw [ok] at failed
    cases failed

theorem Done.step (done : Done task ⟨shared, before ++ ⟨own, instruction :: rest⟩ :: after⟩)
    (acts : Acts shared own instruction rest effect) :
    Done task ⟨effect.shared, before ++ effect.thread :: (after ++ effect.started)⟩ := by
  obtain ⟨state, found, done⟩ := done
  have grown := acts.grows task
  rw [show shared.records[task]? = some (.periodic state) from found] at grown
  unfold Done
  generalize effect.shared.records[task]? = record at grown
  cases grown with
  | plain noRepeat => exact absurd rfl (noRepeat state)
  | @periodic _ state' lasting => exact ⟨state', rfl, lasting done⟩

/-- A repeating task that is done or has panicked does not begin to run again. -/
theorem Stopped.step (stopped : Stopped task ⟨shared, before ++ ⟨own, instruction :: rest⟩ :: after⟩)
    (single : Single ⟨shared, before ++ ⟨own, instruction :: rest⟩ :: after⟩)
    (secure : Secure ⟨shared, before ++ ⟨own, instruction :: rest⟩ :: after⟩ seen)
    (acts : Acts shared own instruction rest effect)
    (performed : perform world before.length shared own instruction rest = some effect) :
    Stopped task ⟨effect.shared, before ++ effect.thread :: (after ++ effect.started)⟩ ∧ .began task ∉ effect.events := by
  rcases stopped with done | ⟨thread, member, next, failed⟩
  · refine ⟨.inl (done.step acts), fun began => ?_⟩
    obtain ⟨state, found, done⟩ := done
    have lives := acts.lively task state began found
    rw [done] at lives
    cases lives
  · obtain ⟨entry, counts, isTask⟩ := count_of_awaited next
    have holds : custody? (.count entry) = some (.repeating, task) := isTask ▸ rfl
    obtain ⟨state, found⟩ := secure.repeats (List.mem_flatMap.mpr ⟨thread, member, counts⟩) holds
    have repeats : ¬ Plain shared.records task := not_plain found
    constructor
    · rcases mem_threads_iff.mp (List.append_nil after ▸ member) with rfl | other | started
      · -- The thread itself makes the step: it takes an interrupt mark back, or it ends the task.
        rcases acts.plays.dooms next failed with ⟨next', failed'⟩ | ⟨_, _, _, isThread, rfl⟩
        · exact .inr ⟨_, mem_threads_iff.mpr (.inl rfl), next', failed'⟩
        · cases isThread
          exact .inl ⟨_, done_of_failed performed failed found, rfl⟩
      · exact .inr ⟨thread, mem_threads_iff.mpr (.inr (.inl other)), next, failed⟩
      · cases started
    · intro began
      obtain ⟨_, fired, _, isThread, rfl⟩ := acts.plays.fires repeats (List.mem_filter.mpr ⟨began, rfl⟩)
      cases isThread
      -- The task would be in two hands: in those of the thread that fires it, and of the one that counts its run.
      have fires : 0 < carried fired.task.task ⟨shared, before ++ ⟨own, .fire fired :: rest⟩ :: after⟩ :=
        List.countP_pos_iff.mpr ⟨.fire fired, todo_mem, by simp [Instruction.carries]⟩
      have running := (single.awaits repeats member next).1
      have place := single.place fired.task.task
      omega

private theorem countP_ofScript {p : Event → Bool} (ofScript : ∀ event, p event = true → event.ofScript = true)
    (events : List Event) :
    (events.filter Event.ofScript).countP p = events.countP p := by
  rw [List.countP_filter]
  refine List.countP_congr fun event _ => ?_
  rw [Bool.and_eq_true]
  exact ⟨And.left, fun told => ⟨told, ofScript event told⟩⟩

theorem countP_after {started : List (Thread Own Instruction)} (p : Instruction → Bool) (one : Thread Own Instruction) :
    (System.todo ⟨shared, before ++ one :: (after ++ started)⟩).countP p =
      one.todo.countP p + ((before ++ after).flatMap Thread.todo).countP p + (started.flatMap Thread.todo).countP p := by
  rw [countP_todo, ← List.append_assoc, List.flatMap_append, List.countP_append, Nat.add_assoc]

private theorem Acts.runs_started (acts : Acts shared own instruction rest effect) (task : Nat) :
    (effect.started.flatMap Thread.todo).countP (Instruction.runs task) = 0 := by
  refine runs_light fun i member => ?_
  obtain ⟨thread, started, here⟩ := List.mem_flatMap.mp member
  exact (acts.starts thread started i here).1

private theorem dues_light {threads : List (Thread Own Instruction)}
    (lights : ∀ thread ∈ threads, ∀ i ∈ thread.todo, i.frames = false)
    (task : Nat) : threads.countP (due task) = 0 := by
  rw [List.countP_eq_zero]
  intro thread member
  rw [due_of_uncounted (counted?_light (lights thread member))]
  exact Bool.false_ne_true

/-- A thread that runs no script of the task begins one, or ends the one it runs. -/
theorem Acts.balance (acts : Acts shared own instruction rest effect) (task : Nat) :
    (System.todo ⟨effect.shared, before ++ effect.thread :: (after ++ effect.started)⟩).countP (Instruction.runs task) +
        effect.events.countP (Event.ends task) =
      (System.todo ⟨shared, before ++ ⟨own, instruction :: rest⟩ :: after⟩).countP (Instruction.runs task) +
        effect.events.countP (Event.begins task) := by
  have moved := acts.plays.balance task
  rw [countP_ofScript (by rintro (_ | _) <;> simp [Event.ends, Event.ofScript]),
    countP_ofScript (by rintro (_ | _) <;> simp [Event.begins, Event.ofScript])] at moved
  rw [countP_after, countP_todo, acts.runs_started]
  omega

/-- What is counted of the task is what its record grows by. -/
theorem counted_of_grows {n : Nat} {record record' : Option Record} (grows : Grows n record record')
    (unsubmitted : record = none → n = 0) (repeats : ∀ known, record' = some known → ∃ state, known = .periodic state) :
    counted record' = counted record + n := by
  cases grows with
  | absent =>
    rw [unsubmitted rfl]
    rfl
  | fresh fresh =>
    rw [unsubmitted rfl]
    cases fresh <;> rfl
  | plain _ noRepeat =>
    obtain ⟨state, rfl⟩ := repeats _ rfl
    exact absurd rfl (noRepeat state)
  | periodic _ runs => exact runs

/-- A run is counted only of a task that has been submitted. -/
theorem Secure.no_credit (secure : Secure ⟨shared, before ++ ⟨own, instruction :: rest⟩ :: after⟩ seen)
    (unsubmitted : shared.records[task]? = none) : (credit task ⟨own, instruction :: rest⟩).toNat = 0 := by
  cases instruction with
  | count entry =>
    have others : entry.task.task ≠ task := by
      rintro rfl
      obtain ⟨state, found⟩ := @Secure.repeats _ _ entry.task.task secure _ todo_mem rfl
      rw [show shared.records[entry.task.task]? = none from unsubmitted] at found
      cases found
    simp [credit, due, awaited, counted?, others]
  | _ => rfl

private theorem Acts.credits (acts : Acts shared own instruction rest effect)
    (single : Single ⟨shared, before ++ ⟨own, instruction :: rest⟩ :: after⟩)
    (secure : Secure ⟨shared, before ++ ⟨own, instruction :: rest⟩ :: after⟩ seen)
    (repeats : ¬ Plain effect.shared.records task) :
    counted effect.shared.records[task]? +
        dues task ⟨effect.shared, before ++ effect.thread :: (after ++ effect.started)⟩ =
      counted shared.records[task]? + dues task ⟨shared, before ++ ⟨own, instruction :: rest⟩ :: after⟩ +
        effect.events.countP (Event.completes task) := by
  have moved := acts.plays.credit (single.framed ⟨own, instruction :: rest⟩ (by simp))
    fun plain => repeats (Grows.plain_mono acts.grows task plain)
  have grown := counted_of_grows (acts.grows task) secure.no_credit fun record found => by
    by_contra noRepeat
    exact repeats ⟨record, found, fun state same => noRepeat ⟨state, same⟩⟩
  rw [countP_ofScript (by rintro (_ | _) <;> simp [Event.completes, Event.ofScript])] at moved
  have started := dues_light (fun thread member i here => (acts.starts thread member i here).1) task
  simp only [dues, List.countP_append, countP_cons_toNat, started]
  omega

private theorem countP_begins {events : List Event} : events.countP (Event.begins task) = 0 ↔ .began task ∉ events := by
  rw [List.countP_eq_zero]
  refine ⟨fun none began => none _ began (by simp [Event.begins]), fun never event member begins => ?_⟩
  cases event <;> simp [Event.begins] at begins
  exact never (begins ▸ member)

theorem Rounds.step (rounds : Rounds ⟨shared, before ++ ⟨own, instruction :: rest⟩ :: after⟩ seen)
    (secure : Secure ⟨shared, before ++ ⟨own, instruction :: rest⟩ :: after⟩ seen)
    (sound : Sound ⟨shared, before ++ ⟨own, instruction :: rest⟩ :: after⟩)
    (performed : (machine.restrict representable).perform world before.length shared own instruction rest = some effect) :
    Rounds ⟨effect.shared, before ++ effect.thread :: (after ++ effect.started)⟩ (seen ++ effect.events) := by
  obtain ⟨inTime, performed⟩ := Machine.restrict_perform.mp performed
  obtain ⟨single, balance, credit, fallen⟩ := rounds
  have acts : Acts shared own instruction rest effect := acts_of_perform (fun job isRun => secure.plain (isRun ▸ todo_mem)) performed
  have continues := secure.continues sound inTime performed
  have single' := single.step secure continues acts
  have lasting : ∀ task, Plain shared.records task → Plain effect.shared.records task := Grows.plain_mono acts.grows
  have played := @Acts.balance before after own instruction rest effect shared acts
  refine ⟨single', fun task => ?_, fun task repeats => ?_, fun task repeats panicked => ?_⟩
  · have known := balance task
    have moved := played task
    rw [List.countP_append, List.countP_append]
    omega
  · have known := credit task (mt (lasting task) repeats)
    have moved := acts.credits single secure repeats
    rw [List.countP_append, known]
    exact moved.symm
  · rcases List.mem_append.mp panicked with earlier | now
    · obtain ⟨stopped, silent⟩ := fallen task (mt (lasting task) repeats) earlier
      obtain ⟨stopped', noBegin⟩ := stopped.step single secure acts performed
      have unbegun : effect.events.countP (Event.begins task) = 0 := countP_begins.mpr noBegin
      have moved := played task
      exact ⟨stopped', by omega⟩
    · obtain ⟨next, failed⟩ := acts.plays.panicked (single.framed ⟨own, instruction :: rest⟩ (by simp))
        (mt (lasting task) repeats) (List.mem_filter.mpr ⟨now, rfl⟩)
      have member : effect.thread ∈ before ++ effect.thread :: (after ++ effect.started) := by simp
      exact ⟨.inr ⟨_, member, next, failed⟩, (single'.awaits repeats member next).2⟩

end Step

/-! ## Runs of the pool -/

section Run

variable {config : Config} {calls : List (List Call)} {s t : System State Own Instruction} {seen later : List Event} {task : Nat}

theorem Rounds.start (config : Config) (calls : List (List Call)) : Rounds (withClients config calls) [] := by
  have calm : ∀ i : Instruction, i.initial = true → i.frames = false ∧ i.straight = true ∧ custody? i = none := by
    intro i isInitial
    cases i <;> first | exact ⟨rfl, rfl, rfl⟩ | cases isInitial
  have quiet : ∀ i ∈ (withClients config calls).todo, i.frames = false ∧ i.straight = true ∧ custody? i = none := by
    intro i member
    obtain ⟨thread, isThread, here⟩ := List.mem_flatMap.mp member
    exact calm i (initial_withClients isThread i here)
  have lights : ∀ thread ∈ (withClients config calls).threads, ∀ i ∈ thread.todo, i.frames = false :=
    fun thread isThread i here => (quiet i (List.mem_flatMap.mpr ⟨thread, isThread, here⟩)).1
  have free : holdings (withClients config calls) = [] := List.filterMap_eq_nil_iff.mpr fun i member => (quiet i member).2.2
  constructor
  case single =>
    refine ⟨fun thread isThread => framed_light (lights thread isThread), fun i member => (quiet i member).2.1,
      List.forall_mem_nil _, fun task => ?_⟩
    rw [free]
    exact Nat.zero_le 1
  case balance =>
    intro task
    rw [runs_light fun i member => (quiet i member).1]
    rfl
  case credit =>
    intro task _
    rw [dues, dues_light lights]
    rfl
  case fallen => exact fun _ _ member => absurd member List.not_mem_nil

theorem Rounds.run (run : (machine.restrict representable).Run (withClients config calls) s seen) : Rounds s seen :=
  run.along (.start config calls) fun past rounds performed =>
    rounds.step (.run past) ((Sound.start config calls).run past.of_restrict) performed

/-- A repeating task that is done stays so, and once it is done or has panicked it does not begin to run again. -/
theorem Stopped.run (run : (machine.restrict representable).Run (withClients config calls) s seen)
    (more : (machine.restrict representable).Run s t later) (stopped : Stopped task s) :
    Stopped task t ∧ (Done task s → Done task t) ∧ .began task ∉ later := by
  refine more.along ⟨stopped, id, List.not_mem_nil⟩ fun more past performed => ?_
  obtain ⟨stopped', lasting, noBegin⟩ := past
  have rounds := Rounds.run (run.trans more)
  have secure := Secure.run (run.trans more)
  have performed := (Machine.restrict_perform.mp performed).2
  have acts := acts_of_perform (fun job isRun => secure.plain (isRun ▸ todo_mem)) performed
  obtain ⟨stopped, noBegin'⟩ := stopped'.step rounds.single secure acts performed
  refine ⟨stopped, fun done => (lasting done).step acts, fun member => ?_⟩
  exact (List.mem_append.mp member).elim noBegin noBegin'

/-- What ends of a task that does not begin to run again is what was running. -/
theorem ends_of_stopped (run : (machine.restrict representable).Run (withClients config calls) s seen)
    (more : (machine.restrict representable).Run s t later) (stopped : Stopped task s) :
    later.countP (Event.ends task) ≤ s.todo.countP (Instruction.runs task) := by
  have noBegin := countP_begins.mpr (Stopped.run run more stopped).2.2
  have known := (Rounds.run run).balance task
  have moved := (Rounds.run (run.trans more)).balance task
  rw [List.countP_append, List.countP_append] at moved
  omega

/-- A repeating task is at every moment in one of three places: once in the scheduled queue or in the hands of one thread
that is about to queue it, to run it or to end it, or executing on one thread, or it has ended and is done. So two
executions never overlap, and whenever there is none, `runs` is the number of those that have come to their end. Once the
task is done, none begins and at most one still ends; after a panic no other one ends, and the task is done as soon as it
is not executing. -/
theorem repeats_one_at_a_time {state : PeriodicState}
    (run : (machine.restrict representable).Run (withClients config calls) s seen)
    (repeats : s.shared.periodic? task = some state) :
    (queued task s + carried task s = 1 ∧ executing task s = 0 ∨
      queued task s + carried task s = 0 ∧ executing task s = 1 ∨
      queued task s + carried task s = 0 ∧ executing task s = 0 ∧ state.done = true) ∧
    (seen.countP (Event.begins task) = seen.countP (Event.ends task) ∨
      seen.countP (Event.begins task) = seen.countP (Event.ends task) + 1 ∧ executing task s = 1) ∧
    (executing task s = 0 → state.runs = seen.countP (Event.completes task)) ∧
    (state.done = true → ∀ t later, (machine.restrict representable).Run s t later →
      (∃ state', t.shared.periodic? task = some state' ∧ state'.done = true) ∧
      .began task ∉ later ∧ later.countP (Event.ends task) ≤ 1) ∧
    (.ended task false ∈ seen → (executing task s = 0 → state.done = true) ∧
      ∀ t later, (machine.restrict representable).Run s t later →
        .began task ∉ later ∧ later.countP (Event.ends task) = 0) := by
  have found : s.shared.records[task]? = some (.periodic state) := periodic?_eq_some_iff.mp repeats
  have noPlain := not_plain found
  have rounds := Rounds.run run
  have kept := (Secure.run run).kept task
  rw [found] at kept
  have known : state.done = true ∨ queued task s + carried task s + executing task s = 1 := by
    rw [← holdings_repeating rounds.single.straights rounds.single.funnel]
    exact kept.2.2.2
  have place := rounds.single.place task
  have runs := rounds.single.runs_le noPlain
  have balance := rounds.balance task
  refine ⟨?_, ?_, fun idle => ?_, fun done t later more => ?_, fun panicked => ⟨fun idle => ?_, fun t later more => ?_⟩⟩
  · rcases known with done | held
    · by_cases held : queued task s + carried task s + executing task s = 1
      · omega
      · exact .inr (.inr ⟨by omega, by omega, done⟩)
    · omega
  · omega
  · have credit := rounds.credit task noPlain
    rw [found] at credit
    have isCounted : counted (some (.periodic state)) = state.runs := rfl
    omega
  · have stopped : Stopped task s := .inl ⟨state, found, done⟩
    obtain ⟨-, lasting, noBegin⟩ := Stopped.run run more stopped
    obtain ⟨state', found', done'⟩ := lasting ⟨state, found, done⟩
    have ends := ends_of_stopped run more stopped
    exact ⟨⟨state', periodic?_eq_some_iff.mpr found', done'⟩, noBegin, by omega⟩
  · rcases (rounds.fallen task noPlain panicked).1 with ⟨state', found', done⟩ | ⟨thread, member, next, -⟩
    · rw [found] at found'
      cases found'
      exact done
    · have running := (rounds.single.awaits noPlain member next).1
      omega
  · obtain ⟨stopped, silent⟩ := rounds.fallen task noPlain panicked
    have ends := ends_of_stopped run more stopped
    exact ⟨(Stopped.run run more stopped).2.2, by omega⟩

end Run

/-- A client submits a task that repeats, and cancels it. -/
def repeatingClient (scripts : List Script) : System State Own Instruction :=
  withClients ⟨1, 1, 1, 0, "pool"⟩ [[.submit (.repeating 0 (.fixedDelay 5)) "repeated" scripts, .cancel 0 false]]

/-- The worker begins to run the task as soon as it is queued. -/
def runAtOnce : List (World × Nat) := ([2, 2, 2] ++ [1, 1, 1]).map (⟨0, false, []⟩, ·)

/-- An execution goes on after the task has been cancelled, and is the last one; and none goes on after a panic. -/
theorem repeats_until_cancelled_or_panicked :
    (∃ s seen t later, (machine.restrict representable).Run (repeatingClient [[]]) s seen ∧
      s.shared.periodic? 0 = some { done := true } ∧ executing 0 s = 1 ∧ (machine.restrict representable).Run s t later ∧
      t.shared.periodic? 0 = some { done := true, runs := 1 } ∧ executing 0 t = 0 ∧
      .began 0 ∉ later ∧ later.countP (Event.ends 0) = 1) ∧
    ∃ s seen, (machine.restrict representable).Run (repeatingClient [[.panic none]]) s seen ∧
      s.shared.periodic? 0 = some {} ∧ executing 0 s = 1 ∧ .ended 0 false ∈ seen ∧
      ∀ t later, (machine.restrict representable).Run s t later → .began 0 ∉ later ∧ later.countP (Event.ends 0) = 0 := by
  constructor
  · have goesOn : (((machine.restrict representable).follow (runAtOnce ++ [(⟨0, false, []⟩, 2)]) (repeatingClient [[]], [])).bind
        fun past => ((machine.restrict representable).follow ([1, 1, 1, 1].map (⟨0, false, []⟩, ·)) (past.1, [])).map
          fun future => (past.1.shared.periodic? 0, executing 0 past.1, future.1.shared.periodic? 0, executing 0 future.1,
            future.2.countP (Event.ends 0))) =
        some (some { done := true }, 1, some { done := true, runs := 1 }, 0, 1) := rfl
    obtain ⟨⟨s, seen⟩, followed, goesOn⟩ := Option.bind_eq_some_iff.mp goesOn
    obtain ⟨⟨t, later⟩, followed', same⟩ := Option.map_eq_some_iff.mp goesOn
    simp only [Prod.mk.injEq] at same
    obtain ⟨isDone, isRunning, isDone', isIdle, ends⟩ := same
    have run := Machine.run_of_follow .start followed
    have more := Machine.run_of_follow .start followed'
    have cycle := repeats_one_at_a_time run isDone
    exact ⟨s, seen, t, later, run, isDone, isRunning, more, isDone', isIdle, (cycle.2.2.2.1 rfl t later more).2.1, ends⟩
  · have panics : ((machine.restrict representable).follow (runAtOnce ++ [1, 1].map (⟨0, false, []⟩, ·))
        (repeatingClient [[.panic none]], [])).map (fun past => (past.1.shared.periodic? 0, executing 0 past.1, past.2)) =
        some (some {}, 1, [.dequeued 0 0 0 0, .began 0, .ended 0 false]) := rfl
    obtain ⟨⟨s, seen⟩, followed, same⟩ := Option.map_eq_some_iff.mp panics
    simp only [Prod.mk.injEq] at same
    obtain ⟨isKnown, isRunning, told⟩ := same
    have run := Machine.run_of_follow .start followed
    have panicked : .ended 0 false ∈ seen := by simp [told]
    have cycle := repeats_one_at_a_time run isKnown
    exact ⟨s, seen, run, isKnown, isRunning, panicked, (cycle.2.2.2.2 panicked).2⟩

end PeerSubstrate.Executor.Pool
