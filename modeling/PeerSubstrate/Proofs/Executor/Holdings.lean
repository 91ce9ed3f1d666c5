import Mathlib.Data.List.Basic
import PeerSubstrate.Proofs.Executor.TaskRecords
import PeerSubstrate.Proofs.Executor.Staffing

/-!
# What a step does with jobs

A job is in a queue, or a thread is about to queue it, to run it or to give it up (`Custody`). What a step of the pool
does to the queues, to the records and to what there is to do with jobs is said once (`Changes`), for a thread whose
panics pass over nothing but calls (`Orderly`).
-/

namespace PeerSubstrate.Executor.Pool
open PeerSubstrate.Time PeerSubstrate.Concurrency

/-- How somebody holds a task: to queue it or to give it up, which includes the queues of the funnel and of the
scheduled pool; bound to run it, which includes the queue of the immediate pool; or to run it again and again, or to end
it. -/
inductive Custody where
  | waiting
  | bound
  | repeating
  deriving DecidableEq

/-- How a task is held in a queue by deadline, and on the way there. -/
def Work.custody : Work → Custody × Nat
  | .once job => (.waiting, job.task)
  | .periodic repeated => (.repeating, repeated.task)

namespace Instruction

/-- The task that whoever has this to do holds. -/
@[simp] def custody? : Instruction → Option (Custody × Nat)
  | .draw _ work _ | .abandon work => some work.custody
  | .funnel (.acquire entry) | .funnel (.enqueue entry) | .push entry => some entry.task.custody
  | .drop job | .immediate (.send job) => some (.waiting, job.task)
  | .immediate (.unpark (.job job)) | .run job => some (.bound, job.task)
  | .fire entry | .count entry | .recheck entry | .renew entry => some (.repeating, entry.task.task)
  | _ => none

/-- The step of the immediate pool. -/
@[simp] def immediate? : Instruction → Option (Immediate.Step Job)
  | .immediate step => some step
  | _ => none

/-- The step of the funnel. -/
@[simp] def funnel? : Instruction → Option (Serialized.Step Entry)
  | .funnel step => some step
  | _ => none

/-- Jobs depend on this. -/
@[simp] def weighty (i : Instruction) : Bool := i.custody?.isSome || i.immediate?.isSome || i.funnel?.isSome

/-- The instruction itself, if jobs depend on it or if it closes the immediate pool. -/
def gone : Instruction → List Instruction
  | .closeImmediate => [.closeImmediate]
  | i => [i].filter weighty

/-- What to do with an entry that is due. -/
def ofDue (entry : Entry) : Instruction :=
  match entry.task with
  | .once job => .run job
  | .periodic repeated => .fire { entry with task := repeated }

/-- What follows a step of the immediate pool, in the thread or in one that is started. -/
def ofNext : Immediate.Next Job → List Instruction
  | .start _ => [.immediate .park]
  | next => ofImmediate next

end Instruction

open Instruction (custody? immediate? funnel? weighty unwind)

/-- The part of the shared state that jobs depend on. -/
structure Stock where
  records : List Record
  immediate : Immediate.Shared Job
  funnel : Serialized.Shared Entry
  queue : List Entry
  stopped : Bool

def State.stock (s : State) : Stock := ⟨s.records, s.immediate, s.funnel, s.scheduled.queue, s.scheduled.stopped⟩

/-- All that is held, in the queues and by threads. -/
def Stock.held (h : Stock) (todo : List Instruction) : List (Custody × Nat) :=
  h.immediate.queue.map (fun job => (.bound, job.task)) ++ h.funnel.queue.map (·.task.custody) ++
    h.queue.map (·.task.custody) ++ todo.filterMap custody?

def Record.mapCell (f : TaskCell Int64 → TaskCell Int64) : Record → Record
  | .oneOff cell => .oneOff (f cell)
  | record => record

def Record.mapPeriodic (f : PeriodicState → PeriodicState) : Record → Record
  | .periodic state => .periodic (f state)
  | record => record

private theorem modify_of_found {records : List Record} {task : Nat} {record : Record} (f : Record → Record)
    (found : records[task]? = some record) : records.modify task f = records.set task (f record) := by
  rw [List.modify_eq_set_getElem?, found]
  rfl

private theorem modify_of_fixed {records : List Record} {task : Nat} {f : Record → Record}
    (fixed : ∀ record, records[task]? = some record → f record = record) : records.modify task f = records := by
  rw [List.modify_eq_set_getElem?]
  cases found : records[task]? with
  | none => rfl
  | some record =>
    obtain ⟨inside, here⟩ := List.getElem?_eq_some_iff.mp found
    have same : records.set task records[task] = records := List.set_getElem_self inside
    rw [here] at same
    simp [fixed record found, same]

/-- The record of a new task, and how the task is held. -/
inductive Fresh : Record → Custody → Prop
  | detached : Fresh .detached .waiting
  | oneOff : Fresh (.oneOff {}) .waiting
  | periodic : Fresh (.periodic {}) .repeating

/-- An event by which a task comes nearer to its end. -/
@[simp] def Event.telling : Event → Bool
  | .accepted _ | .began _ | .cancelled _ _ => true
  | _ => false

/-- Nothing is lost when a panic passes over this. -/
def Instruction.loose : Instruction → Bool
  | .submit _ _ _ | .act _ | .cancel _ _ _ | .closeImmediate | .closeScheduled => true
  | _ => false

/-- Where a thread may panic, only loose instructions are passed over; and two instructions stand directly in front of
the one that completes them. -/
def Instruction.Leads : Instruction → List Instruction → Prop
  | .submit _ _ _, rest | .act _, rest => ∀ i ∈ rest.takeWhile (fun i => !i.stopsPanic), i.loose = true
  | .funnel (.enqueue _), rest => rest.head? = some (.funnel .retry)
  | .closeImmediate, rest => rest.head? = some .closeScheduled
  | _, _ => True

/-- What a thread has to do is in order. -/
def Orderly : List Instruction → Prop
  | [] => True
  | instruction :: rest => instruction.Leads rest ∧ Orderly rest

theorem Orderly.unwind {todo : List Instruction} (orderly : Orderly todo) : Orderly (unwind todo) := by
  induction todo with
  | nil => trivial
  | cons instruction rest ih =>
    rw [Instruction.unwind, List.dropWhile_cons]
    split
    · exact ih orderly.2
    · exact orderly

private theorem Orderly.prepend {todo rest : List Instruction} (free : ∀ i ∈ todo, ∀ others, i.Leads others)
    (orderly : Orderly rest) : Orderly (todo ++ rest) := by
  induction todo with
  | nil => exact orderly
  | cons instruction todo ih =>
    obtain ⟨first, others⟩ := List.forall_mem_cons.mp free
    exact ⟨first _, ih others⟩

/-- A panic inside of a script ends with the script. -/
theorem Orderly.script {task : Nat} {rest : List Instruction} (orderly : Orderly rest) (script : Script) :
    Orderly (script.map .act ++ .caught task :: rest) := by
  induction script with
  | nil => exact ⟨trivial, orderly⟩
  | cons action script ih =>
    refine ⟨?_, ih⟩
    clear ih
    induction script with
    | nil => simp [Instruction.Leads, Instruction.stopsPanic]
    | cons other script ih => exact List.forall_mem_cons.mpr ⟨rfl, ih⟩

private theorem Orderly.guarded {task : Nat} {previous : Option Nat} {rest : List Instruction} (orderly : Orderly rest)
    (script : Script) : Orderly (Instruction.guarded task script previous ++ rest) := by
  have inside := @Orderly.script task (.publish previous :: rest) ⟨trivial, orderly⟩ script
  have before : Orderly (.publish (some task) :: _) := ⟨trivial, inside⟩
  simpa [Instruction.guarded] using before

/-- A panic does not pass over anything that jobs depend on. -/
theorem weighty_unwind {rest : List Instruction}
    (loose : ∀ i ∈ rest.takeWhile (fun i => !i.stopsPanic), i.loose = true) :
    (unwind rest).filter weighty = rest.filter weighty := by
  have light : (rest.takeWhile fun i => !i.stopsPanic).filter weighty = [] := by
    rw [List.filter_eq_nil_iff]
    intro i member
    have isLoose := loose i member
    cases i <;> simp [Instruction.loose] at isLoose <;> simp
  have split : rest = rest.takeWhile (fun i => !i.stopsPanic) ++ unwind rest := List.takeWhile_append_dropWhile.symm
  have parts := congrArg (List.filter weighty) split
  rw [List.filter_append, light, List.nil_append] at parts
  exact parts.symm

/-! ## Steps -/

/-- A step of a thread takes `gone` off what there is to do with jobs, and puts `new` there. A task that is submitted is
held by the same thread until it is queued, run or given up. No step but those of `finish` and `stop` touches the mark
that ends a repeating task, and none but `begin`, `drop`, `store` and `cancel` the cell of a one-off one. -/
inductive Changes : Stock → List Instruction → Stock → List Instruction → List Event → Prop
  | mark {h} (task : Nat) {f : PeriodicState → PeriodicState} : (∀ state, (f state).done = state.done) →
      Changes h [] { h with records := h.records.modify task (.mapPeriodic f) } [] []
  | submit {h record kind} {instruction : Instruction} : Fresh record kind →
      custody? instruction = some (kind, h.records.length) →
      (∀ step, immediate? instruction = some step → ∃ job, step = .send job) → funnel? instruction = none →
      Changes h [] { h with records := h.records ++ [record] } [instruction] []
  | hold {h i j} (task : Nat) {f : PeriodicState → PeriodicState} : (∀ state, (f state).done = state.done) →
      custody? i = custody? j → immediate? i = none → immediate? j = none → funnel? i = none →
      (∀ step, funnel? j = some step → ∃ entry, step = .acquire entry) →
      Changes h [i] { h with records := h.records.modify task (.mapPeriodic f) } [j] []
  | accept {h job} : h.immediate.accepting = true → Changes h [.immediate (.send job)]
      { h with immediate := { h.immediate with queue := h.immediate.queue ++ [job] } } [.immediate .countThreads]
      [.accepted job.task]
  | reject {h job} : h.immediate.accepting = false → Changes h [.immediate (.send job)] h [.drop job] []
  | serve {h step expired immediate next} : (∀ job, step ≠ .send job) →
      h.immediate.perform expired step = some (immediate, next) →
      Changes h [.immediate step] { h with immediate } (next.flatMap Instruction.ofNext) []
  | funnel {h} (step : Serialized.Step Entry) : Changes h [.funnel step] { h with funnel := (h.funnel.perform step).1 }
      ((h.funnel.perform step).2.map Instruction.ofFunnel) []
  | push {h entry} : h.stopped = false →
      Changes h [.push entry] { h with queue := Scheduled.Shared.place entry h.queue } [] []
  | late {h entry} : h.stopped = true → Changes h [.push entry] h [.abandon entry.task] []
  | take {h entry queue} : h.stopped = false → h.queue = entry :: queue →
      Changes h [] { h with queue } [.ofDue entry] []
  | drop {h job} : Changes h [.drop job] { h with records := h.records.modify job.task (.mapCell TaskCell.abandon) } [] []
  | begin {h job cell cell'} : h.records[job.task]? = some (.oneOff cell) → cell.begin? = some cell' →
      Changes h [.run job] { h with records := h.records.set job.task (.oneOff cell') } [] [.began job.task]
  | skip {h job cell} : h.records[job.task]? = some (.oneOff cell) → cell.begin? = none → Changes h [.run job] h [] []
  | detached {h job} : (∀ cell, h.records[job.task]? ≠ some (.oneOff cell)) →
      Changes h [.run job] h [] [.began job.task]
  | fire {h entry} : Changes h [.fire entry] h [.count entry] [.began entry.task.task]
  | finish {h i task} : custody? i = some (.repeating, task) → immediate? i = none → funnel? i = none →
      Changes h [i] { h with records := h.records.modify task (.mapPeriodic ({ · with done := true })) } [] []
  | ceased {h i task state} : custody? i = some (.repeating, task) → immediate? i = none → funnel? i = none →
      h.records[task]? = some (.periodic state) → state.done = true → Changes h [i] h [] []
  | store {h task cell} (result : Except TaskError Int64) : h.records[task]? = some (.oneOff cell) →
      cell.state = .running → Changes h [] { h with records := h.records.set task (.oneOff (cell.finish result)) } [] []
  | cancel {h task cell} (mayInterrupt : Bool) : h.records[task]? = some (.oneOff cell) →
      Changes h [] { h with records := h.records.set task (.oneOff (cell.cancel mayInterrupt).2) } []
        (if (cell.cancel mayInterrupt).1 then [.cancelled task mayInterrupt] else [])
  | stop {h task state} (mayInterrupt : Bool) : h.records[task]? = some (.periodic state) →
      Changes h [] { h with records := h.records.set task (.periodic { state with done := true }) } []
        [.cancelled task mayInterrupt]
  | close {h} : Changes h [.closeImmediate] { h with immediate := h.immediate.close } [] []
  | shut {h} : Changes h [] { h with queue := [], stopped := true } (h.queue.map fun entry => .abandon entry.task) []

section Perform

variable {world : World} {me : Nat} {s s' : State} {own : Own} {instruction : Instruction} {rest : List Instruction}
  {effect : Effect State Own Instruction Event}

/-- What a thread does when it performs the instruction, with this effect. -/
structure Continues (h : Stock) (instruction : Instruction) (rest : List Instruction)
    (effect : Effect State Own Instruction Event) : Prop where
  orderly : Orderly effect.thread.todo
  starts : ∀ thread ∈ effect.started, Orderly thread.todo
  changes : ∃ new, ((effect.thread.todo ++ effect.started.flatMap Thread.todo).filter weighty).Perm
      (new ++ rest.filter weighty) ∧
    Changes h instruction.gone effect.shared.stock new (effect.events.filter Event.telling)

private theorem Continues.goOn {h : Stock} {todo : List Instruction} {events : List Event}
    (performed : Pool.goOn s' own rest todo events = some effect) (orderly : Orderly (todo ++ rest))
    (changes : Changes h instruction.gone s'.stock (todo.filter weighty) (events.filter Event.telling)) :
    Continues h instruction rest effect := by
  cases performed
  refine ⟨orderly, by simp, todo.filter weighty, ?_, changes⟩
  simp

private theorem modify_mapPeriodic_id (records : List Record) (task : Nat) : records.modify task (.mapPeriodic id) = records :=
  modify_of_fixed fun record _ => by cases record <;> rfl

/-- Nothing changes that jobs depend on. -/
theorem Changes.idle (h : Stock) : Changes h [] h [] [] := by
  have changes := @Changes.mark h 0 id fun _ => rfl
  rw [modify_mapPeriodic_id] at changes
  exact changes

/-- A task is handed on, and nothing else changes. -/
theorem Changes.hand (h : Stock) {i j : Instruction} (same : custody? i = custody? j) (pools : immediate? i = none ∧
    immediate? j = none ∧ funnel? i = none) (enters : ∀ step, funnel? j = some step → ∃ entry, step = .acquire entry) :
    Changes h [i] h [j] [] := by
  have changes := @Changes.hold h i j 0 id (fun _ => rfl) same pools.1 pools.2.1 pools.2.2 enters
  rw [modify_mapPeriodic_id] at changes
  exact changes

private theorem Continues.quietly {todo : List Instruction} {events : List Event}
    (performed : Pool.goOn s' own rest todo events = some effect) (light : instruction.gone = [])
    (orderly : Orderly (todo ++ rest)) (same : s'.stock = s.stock) (lights : ∀ i ∈ todo, i.weighty = false)
    (quiet : ∀ event ∈ events, event.telling = false) : Continues s.stock instruction rest effect := by
  refine .goOn performed orderly ?_
  have new : todo.filter weighty = [] := List.filter_eq_nil_iff.mpr (by simpa using lights)
  have told : events.filter Event.telling = [] := List.filter_eq_nil_iff.mpr (by simpa using quiet)
  rw [same, light, new, told]
  exact .idle s.stock

private theorem Continues.raise {message : String} (performed : Pool.raise s own rest message = some effect)
    (light : instruction.gone = []) (orderly : Orderly rest)
    (loose : ∀ i ∈ rest.takeWhile (fun i => !i.stopsPanic), i.loose = true) :
    Continues s.stock instruction rest effect := by
  cases performed
  refine ⟨orderly.unwind, by simp, [], ?_, ?_⟩
  · simp [weighty_unwind loose]
  · rw [light]
    exact .idle s.stock

theorem modifyPeriodic_stock (s : State) (task : Nat) (f : PeriodicState → PeriodicState) :
    (s.modifyPeriodic task f).stock = { s.stock with records := s.records.modify task (.mapPeriodic f) } := by
  unfold State.modifyPeriodic State.periodic?
  split
  · next isPeriodic =>
    split at isPeriodic
    · next found =>
      cases isPeriodic
      rw [modify_of_found _ found]
      rfl
    · cases isPeriodic
  · next noPeriodic =>
    split at noPeriodic
    · cases noPeriodic
    · next other =>
      rw [modify_of_fixed]
      · rfl
      · intro record found
        cases record with
        | periodic state => exact absurd found (other state)
        | detached | oneOff => rfl

private theorem Continues.submit {now : Instant} {channel : Channel} {id : String} {scripts : List Script}
    (leads : Instruction.Leads (.submit channel id scripts) rest) (orderly : Orderly rest)
    (performed : performSubmit s own rest now channel id scripts = some effect) :
    Continues s.stock (.submit channel id scripts) rest effect := by
  cases channel with
  | detached =>
    refine .goOn performed ⟨trivial, orderly⟩ ?_
    exact .submit .detached rfl (by simp) rfl
  | immediate =>
    refine .goOn performed ⟨trivial, orderly⟩ ?_
    exact .submit .oneOff rfl (by simp) rfl
  | dedicated | atInstant =>
    refine .goOn performed ⟨trivial, orderly⟩ ?_
    exact .submit .oneOff rfl (by simp) rfl
  | after =>
    simp only [performSubmit] at performed
    split at performed
    · refine .goOn performed ⟨trivial, orderly⟩ ?_
      exact .submit .oneOff rfl (by simp) rfl
    · exact .raise performed rfl orderly leads
  | repeating =>
    simp only [performSubmit] at performed
    split at performed
    · refine .goOn performed ⟨trivial, orderly⟩ ?_
      exact .submit .periodic rfl (by simp) rfl
    · exact .raise performed rfl orderly leads

private theorem Continues.action {action : Action} (leads : Instruction.Leads (.act action) rest) (orderly : Orderly rest)
    (performed : performAction s own rest world action = some effect) : Continues s.stock (.act action) rest effect := by
  cases action with
  | log | nameThread | reportInterrupt | result =>
    exact .quietly performed rfl orderly rfl (by simp) (by simp)
  | panic => exact .raise performed rfl orderly leads
  | cancel id mayInterrupt =>
    simp only [performAction] at performed
    split at performed
    · exact .quietly performed rfl ⟨trivial, orderly⟩ rfl (by simp) (by simp)
    · exact .quietly performed rfl orderly rfl (by simp) (by simp)
  | shutdown =>
    exact .quietly performed rfl ⟨rfl, trivial, orderly⟩ rfl (by simp) (by simp)
  | submit =>
    exact .quietly performed rfl ⟨leads, orderly⟩ rfl (by simp) (by simp)
  | gate =>
    simp only [performAction] at performed
    split at performed
    · exact .quietly performed rfl orderly rfl (by simp) (by simp)
    · cases performed

theorem light_acts (script : Script) : (script.map Instruction.act).filter weighty = [] := by
  rw [List.filter_eq_nil_iff]
  intro i member
  obtain ⟨action, -, rfl⟩ := List.mem_map.mp member
  simp

theorem light_guarded (task : Nat) (script : Script) (previous : Option Nat) :
    (Instruction.guarded task script previous).filter weighty = [] := by
  rw [Instruction.guarded, List.filter_append, List.filter_append, light_acts]
  rfl

theorem Continues.run {job : Job} (orderly : Orderly rest) (performed : performRun s own rest job = some effect) :
    Continues s.stock (.run job) rest effect := by
  unfold performRun at performed
  split at performed
  · next found =>
    split at performed
    · next began =>
      have behind : Orderly (.conclude job.task :: rest) := ⟨trivial, orderly⟩
      refine .goOn performed ?_ ?_
      · rw [List.append_assoc]
        exact behind.guarded job.script
      · rw [List.filter_append, light_guarded]
        exact .begin found began
    · next ended => exact .goOn performed orderly (.skip found ended)
  · next other =>
    refine .goOn performed ?_ ?_
    · rw [List.append_assoc]
      exact orderly.script job.script
    · rw [List.filter_append, light_acts]
      exact .detached other

private theorem Continues.cancel {task : Nat} {mayInterrupt logged : Bool} (orderly : Orderly rest)
    (performed : performCancel s own rest task mayInterrupt logged = some effect) :
    Continues s.stock (.cancel task mayInterrupt logged) rest effect := by
  unfold performCancel at performed
  split at performed
  · next cell found =>
    have told : ∀ effective interrupts, (((if effective = true then [Event.cancelled task mayInterrupt] else []) ++
        if interrupts = true then [Event.interrupted task] else []).filter Event.telling) =
        if effective = true then [.cancelled task mayInterrupt] else [] := by
      intro effective interrupts
      cases effective <;> cases interrupts <;> rfl
    refine .goOn performed ⟨trivial, orderly⟩ ?_
    rw [told]
    exact .cancel mayInterrupt found
  · next state found =>
    split at performed
    · exact .quietly performed rfl ⟨trivial, orderly⟩ rfl (by simp) (by simp)
    · have answered : Orderly (.answer task true logged :: rest) := ⟨trivial, orderly⟩
      refine .goOn performed ?_ ?_
      · cases mayInterrupt
        · exact ⟨trivial, answered⟩
        · exact ⟨trivial, trivial, answered⟩
      · rw [State.modifyPeriodic, State.periodic?, found]
        cases mayInterrupt <;> exact .stop _ found
  · exact .quietly performed rfl ⟨trivial, orderly⟩ rfl (by simp) (by simp)

private theorem Continues.take {now : Instant} (orderly : Orderly rest) (performed : performTake s own rest now = some effect) :
    Continues s.stock .take rest effect := by
  unfold performTake Scheduled.Shared.take at performed
  by_cases stopped : s.scheduled.stopped = true
  · rw [if_pos stopped] at performed
    exact .quietly performed rfl orderly rfl (by simp) (by simp)
  · have going : s.stock.stopped = false := Bool.eq_false_iff.mpr stopped
    rw [if_neg stopped] at performed
    cases isQueue : s.scheduled.queue with
    | nil =>
      rw [isQueue] at performed
      cases performed
    | cons entry queue =>
      have taken : Changes s.stock [] { s.stock with queue } [.ofDue entry] [] := .take going isQueue
      rw [isQueue] at performed
      by_cases due : entry.deadline ≤ now
      · simp only [due, if_true] at performed
        unfold Instruction.ofDue at taken
        split at performed
        all_goals
          next isTask =>
            rw [isTask] at taken
            exact .goOn performed ⟨trivial, trivial, orderly⟩ taken
      · simp only [due, if_false] at performed
        cases performed

private theorem orderly_ofImmediate {next : List (Immediate.Next Job)} (orderly : Orderly rest) :
    Orderly (next.flatMap Instruction.ofImmediate ++ rest) := by
  refine orderly.prepend fun i member others => ?_
  obtain ⟨one, -, member⟩ := List.mem_flatMap.mp member
  cases one <;> simp [Instruction.ofImmediate] at member <;> subst member <;> trivial

/-- What follows a step is done by its thread and by those that are started. -/
theorem ofNext_perm (pool : String) (next : List (Immediate.Next Job)) :
    (next.flatMap Instruction.ofNext).Perm (next.flatMap Instruction.ofImmediate ++
      (next.filterMap fun
        | .start number => some (workerThread pool number)
        | _ => none).flatMap Thread.todo) := by
  induction next with
  | nil => exact .refl _
  | cons one next ih =>
    cases one with
    | start number =>
      -- The new thread's `park` stands behind all that its starter goes on with.
      refine (ih.cons (.immediate .park)).trans ?_
      exact List.perm_middle.symm
    | go step => exact ih.cons (.immediate step)
    | run job => exact ih.cons (.run job)
    | reject job => exact ih.cons (.drop job)

private theorem weighty_ofNext (next : List (Immediate.Next Job)) :
    (next.flatMap Instruction.ofNext).filter weighty = next.flatMap Instruction.ofNext := by
  rw [List.filter_eq_self]
  intro i member
  obtain ⟨one, -, member⟩ := List.mem_flatMap.mp member
  cases one <;> simp [Instruction.ofNext, Instruction.ofImmediate] at member <;> subst member <;>
    simp

private theorem Continues.immediate {step : Immediate.Step Job} (orderly : Orderly rest)
    (performed : perform world me s own (.immediate step) rest = some effect) :
    Continues s.stock (.immediate step) rest effect := by
  obtain ⟨⟨immediate, next⟩, performs, rfl⟩ := Option.map_eq_some_iff.mp performed
  refine ⟨orderly_ofImmediate orderly, fun thread member => ?_, next.flatMap Instruction.ofNext, ?_, ?_⟩
  · obtain ⟨one, -, starts⟩ := List.mem_filterMap.mp member
    cases one <;> simp at starts
    subst starts
    exact ⟨trivial, trivial⟩
  · have parts := (ofNext_perm s.name next).filter weighty
    rw [weighty_ofNext, List.filter_append] at parts
    rw [List.filter_append, List.filter_append, List.append_assoc]
    refine List.Perm.trans ?_ (parts.symm.append_right _)
    rw [List.append_assoc]
    exact List.perm_append_comm.append_left _
  · have gone : (Instruction.immediate step).gone = [.immediate step] := by simp [Instruction.gone, weighty, immediate?]
    rw [gone]
    -- Only the send of a job is heard of.
    by_cases sends : ∃ job, step = .send job
    · obtain ⟨job, rfl⟩ := sends
      simp only [Immediate.Shared.perform] at performs
      split at performs
      · next accepting =>
        cases performs
        exact .accept accepting
      · next refusing =>
        cases performs
        exact .reject (Bool.eq_false_iff.mpr refusing)
    · rw [(List.filter_eq_nil_iff (p := Event.telling)).mpr]
      · exact .serve (fun job same => sends ⟨job, same⟩) performs
      · intro event member
        obtain ⟨one, -, seen⟩ := List.mem_filterMap.mp member
        split at seen
        · split at seen
          · exact absurd ⟨_, rfl⟩ sends
          · cases seen
        · cases seen
          exact Bool.false_ne_true
        · cases seen
          exact Bool.false_ne_true
        · cases seen

private theorem orderly_ofFunnel {step : Serialized.Step Entry} (orderly : Orderly rest) :
    Orderly ((s.funnel.perform step).2.map Instruction.ofFunnel ++ rest) := by
  cases step with
  | acquire entry =>
    simp only [Serialized.Shared.perform]
    split
    · exact ⟨rfl, trivial, orderly⟩
    · exact ⟨trivial, trivial, orderly⟩
  | enqueue => exact orderly
  | release => exact ⟨trivial, orderly⟩
  | retry | inspect | regain =>
    simp only [Serialized.Shared.perform]
    split
    · exact orderly
    · exact ⟨trivial, orderly⟩
  | receive =>
    simp only [Serialized.Shared.perform]
    split
    · exact ⟨trivial, orderly⟩
    · exact ⟨trivial, trivial, orderly⟩

/-- The next run of a repeating task has a deadline, for all it knows of the clock. -/
def representable (world : World) : Instruction → Bool
  | .renew entry => (nextDeadline entry.task.schedule entry.deadline world.now).isSome
  | _ => true

private theorem Continues.modifyPeriodic {h : Stock} {task : Nat} {f : PeriodicState → PeriodicState} {todo : List Instruction}
    {events : List Event} (performed : Pool.goOn (s.modifyPeriodic task f) own rest todo events = some effect)
    (orderly : Orderly (todo ++ rest))
    (changes : Changes h instruction.gone { s.stock with records := s.records.modify task (.mapPeriodic f) }
      (todo.filter weighty) (events.filter Event.telling)) : Continues h instruction rest effect := by
  refine .goOn performed orderly ?_
  rw [modifyPeriodic_stock]
  exact changes

private theorem ended_of_any {task : Nat} (done : (s.periodic? task).any (·.done) = true) :
    ∃ state, s.records[task]? = some (.periodic state) ∧ state.done = true := by
  unfold State.periodic? at done
  split at done
  · next state found => exact ⟨state, found, done⟩
  · cases done

private theorem Continues.drop {job : Job} (orderly : Orderly rest)
    (performed : perform world me s own (.drop job) rest = some effect) : Continues s.stock (.drop job) rest effect := by
  have dropped := @Changes.drop s.stock job
  simp only [perform] at performed
  split at performed
  · next isCell =>
    have found : s.stock.records[job.task]? = some (.oneOff _) := cell?_eq_some_iff.mp isCell
    rw [modify_of_found _ found] at dropped
    exact .goOn performed orderly dropped
  · next noCell =>
    rw [modify_of_fixed] at dropped
    · exact .goOn performed orderly dropped
    · intro record found
      cases record with
      | oneOff cell => exact absurd found (cell?_eq_none_iff.mp noCell cell)
      | detached | periodic => rfl

/-- What a thread does that is in order, while results are stored only for tasks that are running. -/
theorem Orderly.continues (orderly : Orderly (instruction :: rest)) (inTime : representable world instruction = true)
    (running : ∀ task result cell, instruction = .store task result → s.records[task]? = some (.oneOff cell) →
      cell.state = .running)
    (performed : perform world me s own instruction rest = some effect) : Continues s.stock instruction rest effect := by
  obtain ⟨leads, orderly⟩ := orderly
  -- Only `submit` and `act` panic: a run that is renewed has its next deadline, and both have nothing but loose
  -- instructions in front of the place where the panic stops.
  cases instruction with
  | submit => exact .submit leads orderly performed
  | draw deadline work funnelled =>
    cases funnelled with
    | false =>
      refine .goOn performed ⟨trivial, orderly⟩ ?_
      exact .hand s.stock rfl ⟨rfl, rfl, rfl⟩ (by simp)
    | true =>
      refine .goOn performed ⟨trivial, orderly⟩ ?_
      exact .hand s.stock rfl ⟨rfl, rfl, rfl⟩ (by simp)
  | funnel step =>
    have gone : (Instruction.funnel step).gone = [.funnel step] := by simp [Instruction.gone, weighty, funnel?]
    have new : ((s.funnel.perform step).2.map Instruction.ofFunnel).filter weighty =
        (s.funnel.perform step).2.map Instruction.ofFunnel := by
      rw [List.filter_eq_self]
      intro i member
      obtain ⟨next, -, rfl⟩ := List.mem_map.mp member
      cases next <;> simp [Instruction.ofFunnel, weighty, custody?, funnel?]
    have changes : Changes s.stock [.funnel step] { s.stock with funnel := (s.funnel.perform step).1 } _ [] := .funnel step
    rw [← gone, State.stock, ← new] at changes
    exact .goOn performed (orderly_ofFunnel orderly) changes
  | push entry =>
    simp only [perform, Scheduled.Shared.push?] at performed
    by_cases stopped : s.scheduled.stopped = true
    · rw [if_pos stopped] at performed
      exact .goOn performed ⟨trivial, orderly⟩ (.late stopped)
    · rw [if_neg stopped] at performed
      exact .goOn performed orderly (.push (Bool.eq_false_iff.mpr stopped))
  | abandon work =>
    cases work with
    | once job =>
      refine .goOn performed ⟨trivial, orderly⟩ ?_
      exact .hand s.stock rfl ⟨rfl, rfl, rfl⟩ (by simp)
    | periodic periodic => exact .modifyPeriodic performed orderly (.finish rfl rfl rfl)
  | drop job => exact .drop orderly performed
  | immediate step => exact .immediate orderly performed
  | run job => exact .run orderly performed
  | act action => exact .action leads orderly performed
  | caught | publish | exit => exact .quietly performed rfl orderly rfl (by simp) (by simp)
  | conclude task =>
    simp only [perform] at performed
    split at performed
    · exact .quietly performed rfl ⟨trivial, orderly⟩ rfl (by simp) (by simp)
    · exact .quietly performed rfl orderly rfl (by simp) (by simp)
  | store task result =>
    simp only [perform] at performed
    split at performed
    · next isCell =>
      have found := cell?_eq_some_iff.mp isCell
      exact .goOn performed orderly (.store result found (running task result _ rfl found))
    · exact .quietly performed rfl orderly rfl (by simp) (by simp)
  | take => exact .take orderly performed
  | fire entry =>
    simp only [perform] at performed
    split at performed
    · next done =>
      obtain ⟨state, found, ended⟩ := ended_of_any done
      exact .goOn performed orderly (.ceased rfl rfl rfl found ended)
    · have behind : Orderly (.count entry :: rest) := ⟨trivial, orderly⟩
      refine .goOn performed ?_ ?_
      · rw [List.append_assoc]
        exact behind.guarded _
      · rw [List.filter_append, light_guarded]
        exact .fire
  | count entry =>
    simp only [perform] at performed
    split at performed
    · exact .modifyPeriodic performed orderly (.finish rfl rfl rfl)
    · refine .modifyPeriodic performed ⟨trivial, orderly⟩ ?_
      exact .hold _ (fun _ => rfl) rfl rfl rfl rfl (by simp)
  | recheck entry =>
    simp only [perform] at performed
    split at performed
    · next done =>
      obtain ⟨state, found, ended⟩ := ended_of_any done
      exact .goOn performed orderly (.ceased rfl rfl rfl found ended)
    · refine .goOn performed ⟨trivial, orderly⟩ ?_
      exact .hand s.stock rfl ⟨rfl, rfl, rfl⟩ (by simp)
  | renew entry =>
    simp only [perform] at performed
    split at performed
    · refine .goOn performed ⟨trivial, orderly⟩ ?_
      exact .hand s.stock rfl ⟨rfl, rfl, rfl⟩ (by simp)
    · -- A panic here would lose the task without ending it.
      next late => simp [representable, late] at inTime
  | cancel task mayInterrupt logged => exact .cancel orderly performed
  | markCancelled task => exact .modifyPeriodic performed orderly (.mark task fun _ => rfl)
  | markInterrupt task => exact .modifyPeriodic performed orderly (.mark task fun _ => rfl)
  | answer task effective logged =>
    exact .quietly performed rfl orderly rfl (by simp) (by cases logged <;> simp [Event.telling])
  | closeImmediate => exact .goOn performed orderly .close
  | closeScheduled =>
    have weights : (s.scheduled.queue.map fun entry : Entry => Instruction.abandon entry.task).filter weighty =
        s.scheduled.queue.map fun entry => .abandon entry.task := by
      rw [List.filter_eq_self]
      intro i member
      obtain ⟨entry, -, rfl⟩ := List.mem_map.mp member
      simp
    have emptied : Changes s.stock [] { s.stock with queue := [], stopped := true } _ [] := .shut
    rw [State.stock, ← weights] at emptied
    refine .goOn performed (orderly.prepend ?_) ?_
    · intro i member others
      simp only [List.mem_append, List.mem_map, List.mem_singleton] at member
      rcases member with ⟨entry, -, rfl⟩ | rfl <;> trivial
    · have light : [Instruction.collect].filter weighty = [] := rfl
      rw [List.filter_append, light, List.append_nil]
      exact emptied
  | collect =>
    refine .quietly performed rfl (orderly.prepend ?_) rfl ?_ (by simp)
    · intro i member others
      obtain ⟨thread, -, rfl⟩ := List.mem_map.mp member
      trivial
    · intro i member
      obtain ⟨thread, -, rfl⟩ := List.mem_map.mp member
      rfl
  | join thread =>
    simp only [perform] at performed
    split at performed
    · exact .quietly performed rfl orderly rfl (by simp) (by simp)
    · cases performed

end Perform

end PeerSubstrate.Executor.Pool
