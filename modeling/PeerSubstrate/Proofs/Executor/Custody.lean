import PeerSubstrate.Proofs.Executor.Holdings

/-!
# Who holds a task

What a step does, seen from one task (`Fares`): to its record and to those who hold it. While the task is pending there
is exactly one of them (`Kept`).
-/

namespace PeerSubstrate.Executor.Pool
open PeerSubstrate.Time PeerSubstrate.Concurrency
open Instruction (custody? immediate? funnel? weighty)

/-- What a step does to one task, and what is seen of it: `held` gives way to `held'`. -/
inductive Fares (task : Nat) : Option Record → List Custody → Option Record → List Custody → List Event → Prop
  | marked {record} {f : PeriodicState → PeriodicState} : (∀ state, (f state).done = state.done) →
      Fares task record [] (record.map (.mapPeriodic f)) [] []
  | submitted {record kind} : Fresh record kind → Fares task none [] (some record) [kind] []
  | accepted {record} : Fares task record [.waiting] record [.bound] [.accepted task]
  | picked {record} : Fares task record [.waiting] record [.bound] []
  | dropped {record} : Fares task record [.waiting] (record.map (.mapCell TaskCell.abandon)) [] []
  | began {cell cell'} : cell.begin? = some cell' →
      Fares task (some (.oneOff cell)) [.bound] (some (.oneOff cell')) [] [.began task]
  | skipped {cell} : cell.begin? = none → Fares task (some (.oneOff cell)) [.bound] (some (.oneOff cell)) [] []
  | detached {record} : (∀ cell, record ≠ some (.oneOff cell)) → Fares task record [.bound] record [] [.began task]
  | fired {record} : Fares task record [.repeating] record [.repeating] [.began task]
  | ended {record} : Fares task record [.repeating] (record.map (.mapPeriodic ({ · with done := true }))) [] []
  | ceased {state} : state.done = true →
      Fares task (some (.periodic state)) [.repeating] (some (.periodic state)) [] []
  | stored {cell} (result : Except TaskError Int64) : cell.state = .running →
      Fares task (some (.oneOff cell)) [] (some (.oneOff (cell.finish result))) [] []
  | cancelled {cell} (mayInterrupt : Bool) : Fares task (some (.oneOff cell)) []
      (some (.oneOff (cell.cancel mayInterrupt).2)) []
      (if (cell.cancel mayInterrupt).1 then [.cancelled task mayInterrupt] else [])
  | stopped {state} (mayInterrupt : Bool) : Fares task (some (.periodic state)) []
      (some (.periodic { state with done := true })) [] [.cancelled task mayInterrupt]

section Changes

variable {h h' : Stock} {gone new : List Instruction} {events : List Event}

/-- Nothing changes for any task. -/
theorem Fares.same (task : Nat) (record : Option Record) : Fares task record [] record [] [] := by
  have marked := @Fares.marked task record id fun _ => rfl
  have same : Record.mapPeriodic id = id := funext fun record => by cases record <;> rfl
  rw [same, Option.map_id_fun, id] at marked
  exact marked

theorem Stock.count_held (h : Stock) (todo : List Instruction) (x : Custody × Nat) : (h.held todo).count x =
    (h.immediate.queue.map fun job => (Custody.bound, job.task)).count x + (h.funnel.queue.map (·.task.custody)).count x +
      (h.queue.map (·.task.custody)).count x + (todo.filterMap custody?).count x := by
  simp only [Stock.held, List.count_append]

private theorem held_singleton {i : Instruction} {held : Custody × Nat} (holds : custody? i = some held) :
    [i].filterMap custody? = [held] := by
  rw [List.filterMap_cons, holds]
  rfl

/-- Jobs change hands inside of the immediate pool. -/
theorem perm_serve {p p' : Immediate.Shared Job} {expired : Bool} {step : Immediate.Step Job}
    {next : List (Immediate.Next Job)} (noSend : ∀ job, step ≠ .send job) (performs : p.perform expired step = some (p', next)) :
    ((p'.queue.map fun job => (Custody.bound, job.task)) ++ (next.flatMap Instruction.ofNext).filterMap custody?).Perm
      ((p.queue.map fun job => (Custody.bound, job.task)) ++ [Instruction.immediate step].filterMap custody?) := by
  cases step with
  | send job => exact absurd rfl (noSend job)
  | countThreads | countQueue | park | choose | stop =>
    cases performs
    exact .refl _
  | countIdle | claim | consider | retire =>
    simp only [Immediate.Shared.perform] at performs
    split at performs <;> cases performs <;> exact .refl _
  | receive extra =>
    simp only [Immediate.Shared.perform] at performs
    split at performs
    · next job queue queued =>
      cases performs
      rw [queued]
      exact (List.perm_append_singleton (Custody.bound, job.task) _).trans (.of_eq (List.append_nil _).symm)
    · split at performs
      · cases performs
        exact .refl _
      · split at performs <;> cases performs
        exact .refl _
  | unpark received => cases received <;> cases performs <;> exact .refl _

/-- Entries change hands inside of the funnel. -/
theorem perm_funnel (f : Serialized.Shared Entry) (step : Serialized.Step Entry) :
    ((f.perform step).1.queue.map (·.task.custody) ++
        ((f.perform step).2.map Instruction.ofFunnel).filterMap custody?).Perm
      (f.queue.map (·.task.custody) ++ [Instruction.funnel step].filterMap custody?) := by
  cases step with
  | acquire | retry | inspect | regain =>
    simp only [Serialized.Shared.perform]
    split <;> exact .refl _
  | enqueue entry =>
    rw [Serialized.Shared.perform, List.map_append]
    exact .of_eq (List.append_nil _)
  | receive =>
    simp only [Serialized.Shared.perform]
    split
    · exact .refl _
    · next entry queue queued =>
      rw [queued]
      exact (List.perm_append_singleton entry.task.custody _).trans (.of_eq (List.append_nil _).symm)
  | release => exact .refl _

theorem perm_place (entry : Entry) (queue : List Entry) : (Scheduled.Shared.place entry queue).Perm (entry :: queue) := by
  induction queue with
  | nil => exact .refl _
  | cons first queue ih =>
    rw [Scheduled.Shared.place]
    split
    · exact .refl _
    · exact (ih.cons first).trans (.swap entry first queue)

/-- Those who hold the task as `held` do so no more, and others hold it as `held'`. -/
structure Passes (h : Stock) (gone : List Instruction) (h' : Stock) (new : List Instruction) (task : Nat)
    (held held' : List Custody) : Prop where
  part : ∀ kind, held.count kind ≤ (h.held gone).count (kind, task)
  balance : ∀ x, (h'.held new).count x + (held.map (·, task)).count x =
    (h.held gone).count x + (held'.map (·, task)).count x

private theorem Passes.of_eq {task : Nat} (same : ∀ x, (h'.held new).count x = (h.held gone).count x) :
    Passes h gone h' new task [] [] := ⟨by simp, by simpa using same⟩

/-- Whoever held the task holds it no more. -/
theorem Passes.release {i : Instruction} {kind : Custody} {task : Nat} (holds : custody? i = some (kind, task)) :
    Passes h [i] h [] task [kind] [] := by
  constructor
  · intro other
    rw [Stock.count_held, held_singleton holds, List.count_singleton, List.count_singleton]
    simp
  · intro x
    rw [Stock.count_held, Stock.count_held, held_singleton holds]
    rfl

/-- A step concerns one task, and accounts for those who hold it. -/
structure Accounts (h : Stock) (gone : List Instruction) (h' : Stock) (new : List Instruction) (events : List Event)
    (task : Nat) (held held' : List Custody) : Prop where
  fares : Fares task h.records[task]? held h'.records[task]? held' events
  elsewhere : ∀ other, other ≠ task → h'.records[other]? = h.records[other]?
  passes : Passes h gone h' new task held held'

section Accounts

variable {task : Nat} {held held' : List Custody}

private theorem Accounts.modify {f : Record → Record}
    (fares : Fares task h.records[task]? held (h.records[task]?.map f) held' events)
    (passes : Passes h gone h new task held held') :
    Accounts h gone { h with records := h.records.modify task f } new events task held held' := by
  refine ⟨?_, fun other mine => ?_, passes.part, passes.balance⟩
  · rw [List.getElem?_modify_eq]
    exact fares
  · exact List.getElem?_modify_ne f h.records (Ne.symm mine)

private theorem Accounts.set {old record : Record} (found : h.records[task]? = some old)
    (fares : Fares task (some old) held (some record) held' events) (passes : Passes h gone h new task held held') :
    Accounts h gone { h with records := h.records.set task record } new events task held held' := by
  refine ⟨?_, fun other mine => ?_, passes.part, passes.balance⟩
  · rw [List.getElem?_set_self (List.getElem?_eq_some_iff.mp found).1, found]
    exact fares
  · exact List.getElem?_set_ne (Ne.symm mine)

/-- No record changes. -/
theorem Accounts.keep (same : h'.records = h.records)
    (fares : Fares task h.records[task]? held h.records[task]? held' events)
    (passes : Passes h gone h' new task held held') : Accounts h gone h' new events task held held' := by
  refine ⟨?_, fun other _ => ?_, passes⟩
  · rw [same]
    exact fares
  · rw [same]

end Accounts

theorem Changes.accounts (changes : Changes h gone h' new events) :
    ∃ task held held', Accounts h gone h' new events task held held' := by
  cases changes with
  | mark task keeps => exact ⟨task, [], [], .modify (.marked keeps) (.of_eq fun _ => rfl)⟩
  | @submit record kind instruction fresh holds =>
    refine ⟨h.records.length, [], [kind], ?_, ?_, by simp, fun x => ?_⟩
    · rw [List.getElem?_concat_length, List.getElem?_eq_none (Nat.le_refl _)]
      exact .submitted fresh
    · intro other others
      rw [List.getElem?_append]
      split
      · rfl
      · rw [List.getElem?_eq_none (by simp; omega), List.getElem?_eq_none (by omega)]
    · rw [Stock.count_held, Stock.count_held, held_singleton holds]
      rfl
  | @hold i j task f keeps same =>
    refine ⟨task, [], [], .modify (.marked keeps) (.of_eq fun x => ?_)⟩
    simp only [Stock.count_held, List.filterMap_cons, same]
  | @accept job =>
    refine ⟨job.task, [.waiting], [.bound], .keep rfl .accepted ⟨(Passes.release rfl).part, fun x => ?_⟩⟩
    simp only [Stock.count_held, List.map_append, List.count_append, List.map_cons, List.map_nil, List.filterMap_cons, custody?,
      List.filterMap_nil, List.count_nil]
    omega
  | @reject job => exact ⟨job.task, [], [], .keep rfl (.same _ _) (.of_eq fun _ => rfl)⟩
  | serve noSend performs =>
    -- No task is concerned, so any number will do.
    refine ⟨0, [], [], .keep rfl (.same _ _) (.of_eq fun x => ?_)⟩
    have moved := (perm_serve noSend performs).count_eq x
    rw [List.count_append, List.count_append] at moved
    simp only [Stock.count_held]
    omega
  | funnel step =>
    refine ⟨0, [], [], .keep rfl (.same _ _) (.of_eq fun x => ?_)⟩
    have moved := (perm_funnel h.funnel step).count_eq x
    rw [List.count_append, List.count_append] at moved
    simp only [Stock.count_held]
    omega
  | @push entry going =>
    refine ⟨0, [], [], .keep rfl (.same _ _) (.of_eq fun x => ?_)⟩
    have placed := ((perm_place entry h.queue).map fun entry : Entry => entry.task.custody).count_eq x
    have gone : [Instruction.push entry].filterMap custody? = [entry.task.custody] := rfl
    rw [List.map_cons, ← List.singleton_append, List.count_append] at placed
    simp only [Stock.count_held, placed, gone, List.filterMap_nil, List.count_nil]
    omega
  | late => exact ⟨0, [], [], .keep rfl (.same _ _) (.of_eq fun _ => rfl)⟩
  | @take entry queue going isQueue =>
    have queued : h.queue.map (·.task.custody) = [entry.task.custody] ++ queue.map (·.task.custody) := by
      rw [isQueue]
      rfl
    cases isTask : entry.task with
    | once job =>
      have due : [Instruction.ofDue entry].filterMap custody? = [(.bound, job.task)] := by
        rw [Instruction.ofDue, isTask]
        rfl
      have waited : entry.task.custody = (.waiting, job.task) := by
        rw [isTask]
        rfl
      refine ⟨job.task, [.waiting], [.bound], .keep rfl .picked ⟨fun kind => ?_, fun x => ?_⟩⟩
      · rw [Stock.count_held, queued, waited, List.count_append, List.count_singleton, List.count_singleton]
        simp
        omega
      · simp only [Stock.count_held, due, queued, waited, List.count_append, List.map_cons, List.map_nil, List.filterMap_nil,
          List.count_nil]
        omega
    | periodic repeated =>
      have due : [Instruction.ofDue entry].filterMap custody? = [entry.task.custody] := by
        rw [Instruction.ofDue, isTask]
        rfl
      refine ⟨0, [], [], .keep rfl (.same _ _) (.of_eq fun x => ?_)⟩
      simp only [Stock.count_held, due, queued, List.count_append, List.filterMap_nil, List.count_nil]
      omega
  | @drop job => exact ⟨job.task, [.waiting], [], .modify .dropped (.release rfl)⟩
  | @begin job cell cell' found begins => exact ⟨job.task, [.bound], [], .set found (.began begins) (.release rfl)⟩
  | @skip job cell found ended => exact ⟨job.task, [.bound], [], .keep rfl (found ▸ .skipped ended) (.release rfl)⟩
  | @detached job other => exact ⟨job.task, [.bound], [], .keep rfl (.detached other) (.release rfl)⟩
  | @fire entry =>
    exact ⟨entry.task.task, [.repeating], [.repeating], .keep rfl .fired ⟨(Passes.release rfl).part, fun _ => rfl⟩⟩
  | @finish i task holds => exact ⟨task, [.repeating], [], .modify .ended (.release holds)⟩
  | @ceased i task state holds _ _ found ended =>
    exact ⟨task, [.repeating], [], .keep rfl (found ▸ .ceased ended) (.release holds)⟩
  | @store task cell result found running =>
    exact ⟨task, [], [], .set found (.stored result running) (.of_eq fun _ => rfl)⟩
  | @cancel task cell mayInterrupt found =>
    exact ⟨task, [], [], .set found (.cancelled mayInterrupt) (.of_eq fun _ => rfl)⟩
  | @stop task state mayInterrupt found => exact ⟨task, [], [], .set found (.stopped mayInterrupt) (.of_eq fun _ => rfl)⟩
  | close => exact ⟨0, [], [], .keep rfl (.same _ _) (.of_eq fun _ => rfl)⟩
  | shut =>
    refine ⟨0, [], [], .keep rfl (.same _ _) (.of_eq fun x => ?_)⟩
    have given : (h.queue.map fun entry => Instruction.abandon entry.task).filterMap custody? =
        h.queue.map (·.task.custody) := by
      rw [List.filterMap_map]
      exact congrFun List.filterMap_eq_map _
    simp only [Stock.count_held, given, List.map_nil, List.filterMap_nil, List.count_nil]
    omega

end Changes

/-! ## Where the job of a task is -/

/-- By how far a one-off task has come: who holds it, and what was seen of it. -/
def JobKept (task : Nat) (seen : List Event) (held : Custody → Nat) : TaskCell.State Int64 → Prop
  | .pending => held .waiting + held .bound = 1 ∧ .began task ∉ seen ∧ (∀ mayInterrupt, .cancelled task mayInterrupt ∉ seen) ∧
      (.accepted task ∈ seen → held .waiting = 0)
  | .running => held .waiting + held .bound = 0 ∧ .began task ∈ seen
  | .finished result => held .waiting + held .bound = 0 ∧ .began task ∈ seen ∨
      (∃ mayInterrupt, .cancelled task mayInterrupt ∈ seen) ∧ result = .error .cancelled ∨
      held .waiting + held .bound = 0 ∧ (∀ mayInterrupt, .cancelled task mayInterrupt ∉ seen) ∧ .accepted task ∉ seen ∧
        result = .error .shutdown
  | .taken => False

/-- By what is known of a task: who holds it, and what was seen of it. -/
def Kept (task : Nat) (seen : List Event) (held : Custody → Nat) : Option Record → Prop
  | none => (∀ kind, held kind = 0) ∧ .began task ∉ seen ∧ .accepted task ∉ seen ∧
      ∀ mayInterrupt, .cancelled task mayInterrupt ∉ seen
  | some .detached => held .repeating = 0 ∧ held .waiting + held .bound ≤ 1 ∧
      (.accepted task ∈ seen → held .waiting = 0 ∧ (.began task ∈ seen ∨ held .bound = 1))
  | some (.oneOff cell) => held .repeating = 0 ∧ JobKept task seen held cell.state
  | some (.periodic state) => held .waiting = 0 ∧ held .bound = 0 ∧ .accepted task ∉ seen ∧
      (state.done = true ∨ held .repeating = 1)

section Kept

variable {task : Nat} {record record' : Option Record} {held held' : List Custody} {before after : Custody → Nat}
  {seen events : List Event}

/-- A job that somebody holds has no handle, or is pending, or was cancelled. -/
theorem Kept.unrun (kept : Kept task seen before record) (holds : 0 < before .waiting + before .bound) :
    before .repeating = 0 ∧
    (record = some .detached ∧ before .waiting + before .bound = 1 ∨
      ∃ cell, record = some (.oneOff cell) ∧ (cell.state = .pending ∧ before .waiting + before .bound = 1 ∨
        cell.state = .finished (.error .cancelled) ∧ ∃ mayInterrupt, .cancelled task mayInterrupt ∈ seen)) := by
  cases record with
  | none =>
    have none := kept.1
    simp [none] at holds
  | some record =>
    cases record with
    | detached =>
      obtain ⟨repeating, one, -⟩ := kept
      exact ⟨repeating, .inl ⟨rfl, by omega⟩⟩
    | oneOff cell =>
      obtain ⟨repeating, job⟩ := kept
      refine ⟨repeating, .inr ⟨cell, rfl, ?_⟩⟩
      unfold JobKept at job
      split at job
      · next pending => exact .inl ⟨pending, job.1⟩
      · omega
      · next finished =>
        rcases job with ⟨none, -⟩ | ⟨cancelled, rfl⟩ | ⟨none, -⟩
        · omega
        · exact .inr ⟨finished, cancelled⟩
        · omega
      · exact job.elim
    | periodic state =>
      obtain ⟨waiting, bound, -⟩ := kept
      omega

/-- A job is bound to run: it is in the immediate pool, or out of the scheduled queue. -/
theorem Kept.bind (kept : Kept task seen before record) (waits : after .waiting + 1 = before .waiting)
    (bound : after .bound = before .bound + 1) (repeats : after .repeating = before .repeating)
    (told : events = [] ∨ events = [.accepted task]) : Kept task (seen ++ events) after record := by
  have quiet : .began task ∉ events ∧ ∀ mayInterrupt, .cancelled task mayInterrupt ∉ events := by
    rcases told with rfl | rfl <;> simp
  obtain ⟨repeating, ⟨rfl, one⟩ | ⟨cell, rfl, ⟨pending, one⟩ | ⟨finished, mayInterrupt, cancelled⟩⟩⟩ := kept.unrun (by omega)
  · exact ⟨by omega, by omega, fun _ => ⟨by omega, .inr (by omega)⟩⟩
  · obtain ⟨-, job⟩ := kept
    simp only [JobKept, pending] at job
    refine ⟨by omega, ?_⟩
    simp only [JobKept, pending, List.mem_append, not_or]
    exact ⟨by omega, ⟨job.2.1, quiet.1⟩, fun mayInterrupt => ⟨job.2.2.1 mayInterrupt, quiet.2 mayInterrupt⟩, fun _ => by omega⟩
  · refine ⟨by omega, ?_⟩
    simp only [JobKept, finished]
    exact .inr (.inl ⟨⟨mayInterrupt, List.mem_append_left _ cancelled⟩, trivial⟩)

/-- A job is given up, which its handle takes for a shutdown unless it was cancelled. -/
theorem Kept.drop (kept : Kept task seen before record) (waits : after .waiting + 1 = before .waiting)
    (bound : after .bound = before .bound) (repeats : after .repeating = before .repeating) :
    Kept task seen after (record.map (.mapCell TaskCell.abandon)) := by
  obtain ⟨repeating, ⟨rfl, one⟩ | ⟨cell, rfl, ⟨pending, one⟩ | ⟨finished, cancelled⟩⟩⟩ := kept.unrun (by omega)
  · obtain ⟨-, -, accepted⟩ := kept
    refine ⟨by omega, by omega, fun isAccepted => ?_⟩
    have none := (accepted isAccepted).1
    omega
  · obtain ⟨-, job⟩ := kept
    simp only [JobKept, pending] at job
    refine ⟨by omega, ?_⟩
    simp only [JobKept, TaskCell.abandon, pending, TaskCell.finish]
    refine .inr (.inr ⟨by omega, job.2.2.1, fun isAccepted => ?_, trivial⟩)
    have none := job.2.2.2 isAccepted
    omega
  · refine ⟨by omega, ?_⟩
    simp only [JobKept, TaskCell.abandon, finished]
    exact .inr (.inl ⟨cancelled, trivial⟩)

/-- A job that has no handle, or a pending one, runs. -/
theorem Kept.run (kept : Kept task seen before record) (waits : after .waiting = before .waiting)
    (bound : after .bound + 1 = before .bound) (repeats : after .repeating = before .repeating) :
    (∀ cell cell', record = some (.oneOff cell) → cell.begin? = some cell' →
      Kept task (seen ++ [.began task]) after (some (.oneOff cell'))) ∧
    (∀ cell, record = some (.oneOff cell) → cell.begin? = none → Kept task seen after record) ∧
    ((∀ cell, record ≠ some (.oneOff cell)) → Kept task (seen ++ [.began task]) after record) := by
  obtain ⟨repeating, ⟨rfl, one⟩ | ⟨cell, rfl, ⟨pending, one⟩ | ⟨finished, cancelled⟩⟩⟩ := kept.unrun (by omega)
  · refine ⟨by simp, by simp, fun _ => ⟨by omega, by omega, fun _ => ⟨by omega, .inl (by simp)⟩⟩⟩
  · refine ⟨?_, ?_, fun noCell => absurd rfl (noCell cell)⟩
    · rintro _ cell' ⟨⟩ begins
      simp only [TaskCell.begin?, pending] at begins
      cases begins
      exact ⟨by omega, by omega, by simp⟩
    · rintro _ ⟨⟩ ends
      simp [TaskCell.begin?, pending] at ends
  · refine ⟨?_, ?_, fun noCell => absurd rfl (noCell cell)⟩
    · rintro _ cell' ⟨⟩ begins
      simp [TaskCell.begin?, finished] at begins
    · rintro _ ⟨⟩ -
      refine ⟨by omega, ?_⟩
      simp only [JobKept, finished]
      exact .inr (.inl ⟨cancelled, trivial⟩)

/-- Only repeating tasks are held as such. -/
theorem Kept.repeated (kept : Kept task seen before record) (holds : 0 < before .repeating) :
    ∃ state, record = some (.periodic state) := by
  cases record with
  | none =>
    have none := kept.1
    simp [none] at holds
  | some record =>
    cases record with
    | detached | oneOff =>
      have none := kept.1
      omega
    | periodic state => exact ⟨state, rfl⟩

/-- A cancellation finishes a pending task and leaves a finished one alone. -/
theorem Kept.cancel {cell : TaskCell Int64} (kept : Kept task seen before (some (.oneOff cell))) (mayInterrupt : Bool) :
    Kept task (seen ++ if (cell.cancel mayInterrupt).1 then [.cancelled task mayInterrupt] else []) before
      (some (.oneOff (cell.cancel mayInterrupt).2)) := by
  obtain ⟨repeating, job⟩ := kept
  refine ⟨repeating, ?_⟩
  unfold JobKept at job
  split at job
  · next pending =>
    simp only [TaskCell.cancel, pending, JobKept, if_true]
    exact .inr (.inl ⟨⟨mayInterrupt, by simp⟩, trivial⟩)
  · next running =>
    simp only [TaskCell.cancel, running, JobKept, if_true]
    exact ⟨job.1, by simp [job.2]⟩
  · next finished =>
    simp only [TaskCell.cancel, finished, JobKept, Bool.false_eq_true, if_false, List.append_nil]
    exact job
  · exact job.elim

private theorem Fares.kept (fares : Fares task record held record' held' events) (kept : Kept task seen before record)
    (part : ∀ kind, held.count kind ≤ before kind)
    (balance : ∀ kind, after kind + held.count kind = before kind + held'.count kind) :
    Kept task (seen ++ events) after record' := by
  have waits := balance .waiting
  have bound := balance .bound
  have repeats := balance .repeating
  cases fares with
  | marked keeps =>
    have same : after = before := funext fun kind => by simpa using balance kind
    cases record with
    | none => simpa [same] using kept
    | some record => cases record <;> simpa [Kept, Record.mapPeriodic, same, keeps] using kept
  | @submitted record kind fresh =>
    obtain ⟨none, noBegin, noAccept, noCancel⟩ := kept
    simp only [none] at waits bound repeats
    cases fresh <;> simp_all [Kept, JobKept]
  | accepted => exact kept.bind waits bound repeats (.inr rfl)
  | picked => exact kept.bind waits bound repeats (.inl rfl)
  | dropped =>
    rw [List.append_nil]
    exact kept.drop waits bound repeats
  | began begins => exact (kept.run waits bound repeats).1 _ _ rfl begins
  | skipped ends =>
    rw [List.append_nil]
    exact (kept.run waits bound repeats).2.1 _ rfl ends
  | detached noCell => exact (kept.run waits bound repeats).2.2 noCell
  | fired =>
    have same : after = before := funext fun kind => by simpa using balance kind
    obtain ⟨state, rfl⟩ := kept.repeated (part .repeating)
    rw [same]
    simpa [Kept] using kept
  | ended =>
    obtain ⟨state, rfl⟩ := kept.repeated (part .repeating)
    obtain ⟨waiting, bounded, accepted, -⟩ := kept
    simp at waits bound
    exact ⟨by omega, by omega, by simpa using accepted, .inl rfl⟩
  | ceased ended =>
    obtain ⟨waiting, bounded, accepted, -⟩ := kept
    simp at waits bound
    exact ⟨by omega, by omega, by simpa using accepted, .inl ended⟩
  | stored result running =>
    obtain ⟨repeating, job⟩ := kept
    simp only [JobKept, running] at job
    simp at waits bound repeats
    refine ⟨by omega, ?_⟩
    simp only [TaskCell.finish, JobKept, List.append_nil]
    exact .inl ⟨by omega, job.2⟩
  | cancelled mayInterrupt =>
    have same : after = before := funext fun kind => by simpa using balance kind
    rw [same]
    exact kept.cancel mayInterrupt
  | stopped mayInterrupt =>
    obtain ⟨waiting, bounded, accepted, -⟩ := kept
    simp at waits bound
    exact ⟨by omega, by omega, by simpa using accepted, .inl rfl⟩

/-- Only this task is heard of. -/
theorem Fares.told (fares : Fares task record held record' held' events) {event : Event} (member : event ∈ events) :
    event = .accepted task ∨ event = .began task ∨ ∃ mayInterrupt, event = .cancelled task mayInterrupt := by
  cases fares with
  | accepted | began | detached | fired | stopped => simp_all
  | @cancelled cell mayInterrupt =>
    split at member
    · exact .inr (.inr ⟨mayInterrupt, List.mem_singleton.mp member⟩)
    · cases member
  | _ => cases member

/-- Other tasks are not concerned. -/
theorem Fares.elsewhere {other : Nat} {known : Option Record} (fares : Fares task record held record' held' events)
    (others : other ≠ task) (kept : Kept other seen before known) : Kept other (seen ++ events) before known := by
  have unheard : ∀ event, event = .accepted other ∨ event = .began other ∨ (∃ mayInterrupt, event = .cancelled other mayInterrupt) →
      (event ∈ seen ++ events ↔ event ∈ seen) := by
    intro event isHeard
    rw [List.mem_append]
    refine ⟨fun heard => heard.resolve_right fun member => ?_, .inl⟩
    rcases isHeard with rfl | rfl | ⟨mayInterrupt, rfl⟩ <;> simpa [others] using fares.told member
  have accepted := unheard (.accepted other) (.inl rfl)
  have began := unheard (.began other) (.inr (.inl rfl))
  have cancelled : ∀ mayInterrupt, .cancelled other mayInterrupt ∈ seen ++ events ↔ .cancelled other mayInterrupt ∈ seen :=
    fun mayInterrupt => unheard _ (.inr (.inr ⟨mayInterrupt, rfl⟩))
  unfold Kept JobKept at kept ⊢
  simpa only [accepted, began, cancelled] using kept

end Kept

theorem count_map_pair (held : List Custody) (kind : Custody) (task : Nat) :
    (held.map (·, task)).count (kind, task) = held.count kind := by
  induction held with
  | nil => rfl
  | cons first held ih =>
    rw [List.map_cons, List.count_cons, List.count_cons, ih]
    simp

theorem count_map_pair_of_ne {task other : Nat} (others : other ≠ task) (held : List Custody) (kind : Custody) :
    (held.map (·, task)).count (kind, other) = 0 := by
  rw [List.count_eq_zero]
  intro member
  obtain ⟨_, -, same⟩ := List.mem_map.mp member
  exact others (Prod.mk.inj same).2.symm

section Accounts

variable {h h' : Stock} {gone new : List Instruction} {events seen : List Event} {subject task : Nat}
  {held held' : List Custody} {before after others : Custody × Nat → Nat}

/-- Those who hold the task of a step as `held` do so no more, and others hold it as `held'`; all other tasks stay where they
are, and so does whatever `others` hold besides. -/
theorem Accounts.moved (accounts : Accounts h gone h' new events subject held held')
    (heldBefore : ∀ x, before x = (h.held gone).count x + others x) (heldAfter : ∀ x, after x = (h'.held new).count x + others x) :
    (∀ kind, held.count kind ≤ before (kind, subject)) ∧
      (∀ kind, after (kind, subject) + held.count kind = before (kind, subject) + held'.count kind) ∧
      ∀ task, task ≠ subject → ∀ kind, after (kind, task) = before (kind, task) := by
  obtain ⟨-, -, part, balance⟩ := accounts
  have moved : ∀ x, after x + (held.map (·, subject)).count x = before x + (held'.map (·, subject)).count x := by
    intro x
    have here := balance x
    rw [heldBefore, heldAfter]
    omega
  refine ⟨fun kind => ?_, fun kind => ?_, fun task apart kind => ?_⟩
  · rw [heldBefore]
    exact Nat.le_add_right_of_le (part kind)
  · have here := moved (kind, subject)
    rwa [count_map_pair, count_map_pair] at here
  · have here := moved (kind, task)
    rwa [count_map_pair_of_ne apart, count_map_pair_of_ne apart] at here

/-- What is kept of every task stays so. -/
theorem Accounts.kept (accounts : Accounts h gone h' new events subject held held')
    (heldBefore : ∀ x, before x = (h.held gone).count x + others x) (heldAfter : ∀ x, after x = (h'.held new).count x + others x)
    (kept : Kept task seen (fun kind => before (kind, task)) h.records[task]?) :
    Kept task (seen ++ events) (fun kind => after (kind, task)) h'.records[task]? := by
  obtain ⟨part, moved, unmoved⟩ := accounts.moved heldBefore heldAfter
  by_cases isSubject : task = subject
  · subst isSubject
    exact accounts.fares.kept kept part moved
  · rw [funext (unmoved task isSubject), accounts.elsewhere task isSubject]
    exact accounts.fares.elsewhere isSubject kept

end Accounts

end PeerSubstrate.Executor.Pool
