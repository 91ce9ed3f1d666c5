import PeerSubstrate.Proofs.Executor.Bearers

/-!
# Entries in hand

An entry of the scheduled queue begins with a thread that is about to draw its number, and ends when its task has been run or
given up; between them it is in one hand at a time, in the queue or on the way there (`freight`). What a step does with entries
is said once (`Hauls`), together with what an observer notes of it (`movements`).
-/

namespace PeerSubstrate.Executor.Pool
open PeerSubstrate.Time PeerSubstrate.Concurrency
open Instruction (custody? weighty unwind)

/-- The number of the task. -/
def Work.number (work : Work) : Nat := work.custody.2

/-- How far a worker has come with a repeating task. -/
inductive Leg where
  | fire
  | count
  | recheck
  | renew

/-- An entry that somebody has in hand: a thread is about to draw a number for it; it has a number and is on its way to
the queue, in the queue, or about to be given up; or a worker has it that runs its task, which repeats. -/
inductive Freight where
  | drawing (deadline : Instant) (work : Work)
  | coming (entry : Entry)
  | queued (entry : Entry)
  | leaving (work : Work)
  | held (leg : Leg) (entry : Scheduled.Entry Periodic)

/-- How the task of the entry is held. -/
def Freight.custody : Freight → Custody × Nat
  | .drawing _ work | .leaving work => work.custody
  | .coming entry | .queued entry => entry.task.custody
  | .held _ entry => (.repeating, entry.task.task)

/-- The entry that whoever has this to do has in hand. -/
def Instruction.freight? : Instruction → Option Freight
  | .draw deadline work _ => some (.drawing deadline work)
  | .funnel (.acquire entry) | .funnel (.enqueue entry) | .push entry => some (.coming entry)
  | .abandon work => some (.leaving work)
  | .fire entry => some (.held .fire entry)
  | .count entry => some (.held .count entry)
  | .recheck entry => some (.held .recheck entry)
  | .renew entry => some (.held .renew entry)
  | _ => none

open Instruction (freight?)

/-- The entries in the queues, -/
def State.freight (s : State) : List Freight := s.funnel.queue.map .coming ++ s.scheduled.queue.map .queued

/-- and all of them. -/
def freight (s : System State Own Instruction) : List Freight := s.shared.freight ++ s.todo.filterMap freight?

/-- What becomes of entries and of scripts. A new entry gets its number; the queue takes an entry in or refuses it; a
worker takes one; a shutdown throws one out; a task that was refused or thrown out is given up. A script begins, or does
not, since its task has been cancelled or has ended, and comes to its end. An entry of a repeating task is going to be
queued again, or it is not, since the task has ended. -/
inductive Movement where
  | drawn (entry : Entry)
  | pushed (entry : Entry)
  | refused (entry : Entry)
  | took (entry : Entry)
  | evicted (entry : Entry)
  | gaveUp (work : Work)
  | started (task : Nat)
  | skipped (task : Nat)
  | ended (task : Nat)
  | requeued (entry : Entry)
  | over (entry : Scheduled.Entry Periodic)

/-- The script of the task begins. -/
def Movement.starts (task : Nat) : Movement → Bool
  | .started other => other == task
  | _ => false

theorem eq_of_starts {task : Nat} {note : Movement} (begins : note.starts task = true) : note = .started task := by
  cases note with
  | started other => rw [beq_iff_eq.mp begins]
  | _ => cases begins

/-- What is seen of a script. -/
def Event.movement? : Event → Option Movement
  | .began task => some (.started task)
  | .ended task _ => some (.ended task)
  | _ => none

/-- The entry of a repeating task after one run. -/
def renewed (entry : Scheduled.Entry Periodic) (deadline : Instant) : Entry :=
  ⟨deadline, entry.seq, .periodic { entry.task with scripts := laterScripts entry.task.scripts }⟩

/-- What becomes of entries when an instruction is performed in this state. -/
def Instruction.movements (now : Instant) (s : State) (own : Own) : Instruction → List Movement
  | .draw deadline work _ => [.drawn ⟨deadline, s.scheduled.nextSeq, work⟩]
  | .push entry => [if s.scheduled.stopped then .refused entry else .pushed entry]
  | .abandon work => [.gaveUp work]
  | .run job => if (s.cell? job.task).any fun cell => cell.begin?.isNone then [.skipped job.task] else []
  | .take => match s.scheduled.take now with
    | .due entry _ => [.took entry]
    | _ => []
  | .fire entry =>
    if (s.periodic? entry.task.task).any (·.done) then [.skipped entry.task.task, .over entry] else []
  | .count entry => if own.outcome.toBool then [] else [.over entry]
  | .recheck entry => if (s.periodic? entry.task.task).any (·.done) then [.over entry] else []
  | .renew entry => match nextDeadline entry.task.schedule entry.deadline now with
    | some deadline => [.requeued (renewed entry deadline)]
    | none => [.over entry]
  | .closeScheduled => s.scheduled.queue.map .evicted
  | _ => []

/-- What an observer notes who follows the entries. -/
def movements (world : World) (s : State) (own : Own) (i : Instruction) (events : List Event) : List Movement :=
  i.movements world.now s own ++ events.filterMap Event.movement?

/-! ## What a step does -/

/-- What a worker has in hand with an entry that it has taken. -/
def Freight.ofTaken (entry : Entry) : List Freight :=
  match entry.task with
  | .once _ => []
  | .periodic repeated => [.held .fire { entry with task := repeated }]

/-- An instruction takes `gone` out of the hands and puts `new` there, and this is noted of it. An entry is `ceased`
whenever its worker lets go of it and it does not come back. -/
inductive Hauls (now : Instant) (s : State) : Instruction → List Freight → List Freight → List Movement → Prop
  | still {i} : Hauls now s i [] [] []
  | ran {job} : Hauls now s (.run job) [] [] [.started job.task]
  | passed {job} : Hauls now s (.run job) [] [] [.skipped job.task]
  | ended {task} : Hauls now s (.caught task) [] [] [.ended task]
  | submitted {i deadline work} : work.number = s.records.length → Hauls now s i [] [.drawing deadline work] []
  | drawn {deadline work funnelled} : Hauls now s (.draw deadline work funnelled) [.drawing deadline work]
      [.coming ⟨deadline, s.scheduled.nextSeq, work⟩] [.drawn ⟨deadline, s.scheduled.nextSeq, work⟩]
  | pushed {entry} : s.scheduled.stopped = false → Hauls now s (.push entry) [.coming entry] [.queued entry] [.pushed entry]
  | refused {entry} : s.scheduled.stopped = true →
      Hauls now s (.push entry) [.coming entry] [.leaving entry.task] [.refused entry]
  | took {entry queue} : s.scheduled.stopped = false → s.scheduled.queue = entry :: queue → entry.deadline ≤ now →
      Hauls now s .take [.queued entry] (Freight.ofTaken entry) [.took entry]
  | evicted : Hauls now s .closeScheduled (s.scheduled.queue.map .queued)
      (s.scheduled.queue.map fun entry => .leaving entry.task) (s.scheduled.queue.map .evicted)
  | gaveUp {work} : Hauls now s (.abandon work) [.leaving work] [] [.gaveUp work]
  | fired {entry} : Hauls now s (.fire entry) [.held .fire entry] [.held .count entry] [.started entry.task.task]
  | skipped {entry} : Hauls now s (.fire entry) [.held .fire entry] [] [.skipped entry.task.task, .over entry]
  | counted {entry} : Hauls now s (.count entry) [.held .count entry] [.held .recheck entry] []
  | rechecked {entry} : Hauls now s (.recheck entry) [.held .recheck entry] [.held .renew entry] []
  | renewed {entry deadline} : nextDeadline entry.task.schedule entry.deadline now = some deadline →
      Hauls now s (.renew entry) [.held .renew entry] [.coming (renewed entry deadline)] [.requeued (renewed entry deadline)]
  | ceased {i leg entry} : freight? i = some (.held leg entry) → Hauls now s i [.held leg entry] [] [.over entry]

section Perform

variable {world : World} {me : Nat} {s s' : State} {own own' : Own} {instruction : Instruction} {rest : List Instruction}
  {effect : Effect State Own Instruction Event} {gone new others : List Freight}

/-- What a thread does with entries when it performs the instruction, with this effect. -/
structure Ships (world : World) (s : State) (own : Own) (instruction : Instruction) (rest : List Instruction)
    (effect : Effect State Own Instruction Event) : Prop where
  starts : ∀ thread ∈ effect.started, thread.todo.filterMap freight? = []
  moves : ∃ gone new others, Hauls world.now s instruction gone new (movements world s own instruction effect.events) ∧
    (s.freight ++ (instruction :: rest).filterMap freight?).Perm (gone ++ others) ∧
    (effect.shared.freight ++ effect.thread.todo.filterMap freight?).Perm (new ++ others)

theorem filterMap_cons_toList {α β : Type} (f : α → Option β) (a : α) (l : List α) :
    (a :: l).filterMap f = (f a).toList ++ l.filterMap f := by
  rw [List.filterMap_cons]
  cases f a <;> rfl

private theorem Ships.goOn {todo : List Instruction} {events : List Event} {notes : List Movement}
    (performed : Pool.goOn s' own' rest todo events = some effect) (noted : movements world s own instruction events = notes)
    (moves : Hauls world.now s instruction gone new notes) (before : (s.freight ++ (freight? instruction).toList).Perm (gone ++ others))
    (after : (s'.freight ++ todo.filterMap freight?).Perm (new ++ others)) : Ships world s own instruction rest effect := by
  subst noted
  cases performed
  refine ⟨List.forall_mem_nil _, gone, new, others ++ rest.filterMap freight?, moves, ?_, ?_⟩
  · rw [filterMap_cons_toList, ← List.append_assoc, ← List.append_assoc]
    exact before.append_right _
  · rw [List.filterMap_append, ← List.append_assoc, ← List.append_assoc]
    exact after.append_right _

/-- The queues are what they were, and what the thread has in hand becomes something else. -/
theorem Ships.handle {todo : List Instruction} {events : List Event} {notes : List Movement}
    (performed : Pool.goOn s' own' rest todo events = some effect) (noted : movements world s own instruction events = notes)
    (same : s'.freight = s.freight)
    (moves : Hauls world.now s instruction (freight? instruction).toList (todo.filterMap freight?) notes) :
    Ships world s own instruction rest effect :=
  .goOn performed noted moves List.perm_append_comm (same ▸ List.perm_append_comm)

/-- Nothing is done with entries. -/
theorem Ships.aside {todo : List Instruction} {events : List Event}
    (performed : Pool.goOn s' own' rest todo events = some effect) (idle : movements world s own instruction events = [])
    (same : s'.freight = s.freight) (empty : freight? instruction = none) (lights : todo.filterMap freight? = []) :
    Ships world s own instruction rest effect := by
  refine .handle performed idle same ?_
  rw [empty, lights]
  exact .still

/-- Whoever has an entry in hand is one on whom jobs depend. -/
theorem weighty_of_freight {i : Instruction} {x : Freight} (holds : freight? i = some x) :
    i.weighty = true ∧ custody? i = some x.custody := by
  cases i with
  | funnel step => cases step <;> cases holds <;> exact ⟨rfl, rfl⟩
  | draw | push | abandon | fire | count | recheck | renew =>
    cases holds
    exact ⟨rfl, rfl⟩
  | _ => cases holds

private theorem weighs_freight (i : Instruction) (light : i.weighty = false) : freight? i = none := by
  cases holds : freight? i with
  | none => rfl
  | some x =>
    rw [(weighty_of_freight holds).1] at light
    cases light

/-- A panic passes over nothing of this. -/
theorem Ships.raise {message : String} {notes : List Movement} (performed : Pool.raise s own rest message = some effect)
    (orderly : Orderly (instruction :: rest)) (unladen : Unladen (instruction :: rest)) (panics : instruction.panics = true)
    (noted : movements world s own instruction [] = notes)
    (moves : Hauls world.now s instruction (freight? instruction).toList [] notes) : Ships world s own instruction rest effect := by
  subst noted
  cases performed
  refine ⟨List.forall_mem_nil _, _, [], s.freight ++ rest.filterMap freight?, moves, ?_, ?_⟩
  · rw [filterMap_cons_toList, ← List.append_assoc, ← List.append_assoc]
    exact List.perm_append_comm.append_right _
  · rw [← filterMap_weighty weighs_freight, weighty_raised panics orderly unladen, filterMap_weighty weighs_freight]
    exact .refl _

/-- No number is drawn, and nothing is queued, taken or given up. -/
theorem Ships.lose {message : String} (performed : Pool.raise s own rest message = some effect)
    (orderly : Orderly (instruction :: rest)) (unladen : Unladen (instruction :: rest)) (panics : instruction.panics = true)
    (idle : movements world s own instruction [] = []) (empty : freight? instruction = none) :
    Ships world s own instruction rest effect :=
  .raise performed orderly unladen panics idle (empty ▸ .still)

private theorem ships_submit {channel : Channel} {id : String} {scripts : List Script}
    (orderly : Orderly (.submit channel id scripts :: rest)) (unladen : Unladen (.submit channel id scripts :: rest))
    (performed : performSubmit s own rest world.now channel id scripts = some effect) :
    Ships world s own (.submit channel id scripts) rest effect := by
  cases channel with
  | detached | immediate => exact .aside performed rfl rfl rfl rfl
  | dedicated | atInstant => exact .handle performed rfl rfl (.submitted rfl)
  | after | repeating =>
    simp only [performSubmit] at performed
    split at performed
    · exact .handle performed rfl rfl (.submitted rfl)
    · exact .lose performed orderly unladen rfl rfl rfl

private theorem ships_action {action : Action} (orderly : Orderly (.act action :: rest))
    (unladen : Unladen (.act action :: rest))
    (performed : performAction s own rest world action = some effect) : Ships world s own (.act action) rest effect := by
  cases action with
  | log | nameThread | reportInterrupt | result | shutdown | submit => exact .aside performed rfl rfl rfl rfl
  | panic => exact .lose performed orderly unladen rfl rfl rfl
  | cancel id mayInterrupt =>
    simp only [performAction] at performed
    split at performed <;> exact .aside performed rfl rfl rfl rfl
  | gate =>
    simp only [performAction] at performed
    split at performed
    · exact .aside performed rfl rfl rfl rfl
    · cases performed

private theorem freight_acts (script : Script) : (script.map Instruction.act).filterMap freight? = [] := by
  rw [List.filterMap_eq_nil_iff]
  intro i member
  obtain ⟨action, -, rfl⟩ := List.mem_map.mp member
  rfl

private theorem freight_guarded (task : Nat) (script : Script) (previous : Option Nat) :
    (Instruction.guarded task script previous).filterMap freight? = [] := by
  rw [Instruction.guarded, List.filterMap_append, List.filterMap_append, freight_acts]
  rfl

private theorem ships_run {job : Job} (performed : performRun s own rest job = some effect) :
    Ships world s own (.run job) rest effect := by
  unfold performRun at performed
  split at performed
  · next cell found =>
    have isCell : s.cell? job.task = some cell := cell?_eq_some_iff.mpr found
    split at performed
    · next cell' begins =>
      have noted : movements world s own (.run job) [.began job.task] = [.started job.task] := by
        simp [movements, Instruction.movements, isCell, begins, Event.movement?]
      refine .handle performed noted rfl ?_
      rw [List.filterMap_append, freight_guarded]
      exact .ran
    · next ends =>
      have noted : movements world s own (.run job) [] = [.skipped job.task] := by
        simp [movements, Instruction.movements, isCell, ends]
      exact .handle performed noted rfl .passed
  · next other =>
    have noCell : s.cell? job.task = none := cell?_eq_none_iff.mpr other
    have noted : movements world s own (.run job) [.began job.task] = [.started job.task] := by
      simp [movements, Instruction.movements, noCell, Event.movement?]
    refine .handle performed noted rfl ?_
    rw [List.filterMap_append, freight_acts]
    exact .ran

private theorem freight_modifyPeriodic (s : State) (task : Nat) (f : PeriodicState → PeriodicState) :
    (s.modifyPeriodic task f).freight = s.freight := by
  obtain ⟨-, funnel, scheduled⟩ := keepsQueues_modifyPeriodic s task f
  rw [State.freight, funnel, scheduled]
  rfl

private theorem ships_cancel {task : Nat} {mayInterrupt logged : Bool}
    (performed : performCancel s own rest task mayInterrupt logged = some effect) :
    Ships world s own (.cancel task mayInterrupt logged) rest effect := by
  have idle : ∀ effective interrupts, movements world s own (.cancel task mayInterrupt logged)
      ((if effective = true then [.cancelled task mayInterrupt] else []) ++
        if interrupts = true then [.interrupted task] else []) = [] := by
    intro effective interrupts
    cases effective <;> cases interrupts <;> rfl
  unfold performCancel at performed
  split at performed
  · exact .aside performed (idle _ _) rfl rfl rfl
  · split at performed
    · exact .aside performed rfl rfl rfl rfl
    · refine .aside performed rfl (freight_modifyPeriodic _ _ _) rfl ?_
      cases mayInterrupt <;> rfl
  · exact .aside performed rfl rfl rfl rfl

/-- On its way through the funnel an entry stays what it is. -/
theorem perm_coming (f : Serialized.Shared Entry) (step : Serialized.Step Entry) :
    ((f.perform step).1.queue.map Freight.coming ++ ((f.perform step).2.map Instruction.ofFunnel).filterMap freight?).Perm
      (f.queue.map Freight.coming ++ (freight? (.funnel step)).toList) := by
  cases step with
  | acquire entry =>
    simp only [Serialized.Shared.perform]
    split <;> exact .refl _
  | enqueue entry =>
    simp only [Serialized.Shared.perform, List.map_append]
    exact (List.append_nil _).symm ▸ .refl _
  | receive =>
    simp only [Serialized.Shared.perform]
    split
    · next empty =>
      rw [empty]
      exact .refl _
    · next entry queue queued =>
      rw [queued, show freight? (.funnel .receive) = none from rfl, Option.toList_none, List.append_nil]
      exact List.perm_append_singleton _ _
  | retry | inspect | regain =>
    simp only [Serialized.Shared.perform]
    split <;> exact .refl _
  | release => exact .refl _

private theorem ships_funnel {step : Serialized.Step Entry}
    (performed : perform world me s own (.funnel step) rest = some effect) :
    Ships world s own (.funnel step) rest effect := by
  have swap : ∀ one two three : List Freight, ((one ++ two) ++ three).Perm ((one ++ three) ++ two) := by
    intro one two three
    rw [List.append_assoc, List.append_assoc]
    exact List.perm_append_comm.append_left one
  refine .goOn performed rfl .still (.refl _) ?_
  exact (swap _ _ _).trans (((perm_coming s.funnel step).append_right _).trans (swap _ _ _))

private theorem ships_immediate {step : Immediate.Step Job}
    (performed : perform world me s own (.immediate step) rest = some effect) :
    Ships world s own (.immediate step) rest effect := by
  have quiet : effect.events.filterMap Event.movement? = [] := by
    refine List.filterMap_eq_nil_iff.mpr fun event member => ?_
    have silent := quiet_immediate performed event member
    cases event <;> first | rfl | cases silent
  obtain ⟨⟨immediate, next⟩, -, rfl⟩ := Option.map_eq_some_iff.mp performed
  have lights : (next.flatMap Instruction.ofImmediate).filterMap freight? = [] := by
    refine List.filterMap_eq_nil_iff.mpr fun i member => ?_
    obtain ⟨one, -, here⟩ := List.mem_flatMap.mp member
    cases one with
    | start => cases here
    | go | run | reject =>
      cases List.mem_singleton.mp here
      rfl
  refine ⟨fun thread member => ?_, [], [], s.freight ++ rest.filterMap freight?, ?_, .refl _, ?_⟩
  · obtain ⟨one, -, starts⟩ := List.mem_filterMap.mp member
    cases one <;> simp at starts
    subst starts
    rfl
  · rw [movements, quiet]
    exact .still
  · rw [List.filterMap_append, lights]
    exact .refl _

theorem take_eq_due {p p' : Scheduled.Shared Work} {now : Instant} {entry : Entry} (taken : p.take now = .due entry p') :
    p.stopped = false ∧ entry.deadline ≤ now ∧ ∃ queue, p.queue = entry :: queue ∧ p' = { p with queue } := by
  unfold Scheduled.Shared.take at taken
  split at taken
  · cases taken
  · next going =>
    split at taken
    · cases taken
    · next queue queued =>
      split at taken
      · next inTime =>
        cases taken
        exact ⟨Bool.eq_false_iff.mpr going, inTime, queue, queued, rfl⟩
      · cases taken

private theorem ships_take (performed : performTake s own rest world.now = some effect) :
    Ships world s own .take rest effect := by
  unfold performTake at performed
  split at performed
  · next stops =>
    refine .aside performed ?_ rfl rfl rfl
    simp [movements, Instruction.movements, stops]
  · cases performed
  · next entry scheduled taken =>
    obtain ⟨going, inTime, queue, queued, rfl⟩ := take_eq_due taken
    have noted : ∀ deadline task seq, movements world s own .take [.dequeued task deadline seq world.now] = [.took entry] := by
      intro deadline task seq
      simp [movements, Instruction.movements, taken, Event.movement?]
    have before : (s.freight ++ (freight? .take).toList).Perm ([.queued entry] ++
        (s.funnel.queue.map .coming ++ queue.map .queued)) := by
      rw [State.freight, queued, show freight? .take = none from rfl, Option.toList_none, List.append_nil]
      exact List.perm_middle
    split at performed
    all_goals
      next isTask =>
        refine .goOn performed (noted _ _ _) (.took going queued inTime) before ?_
        rw [Freight.ofTaken, isTask]
        exact List.perm_append_comm

private theorem ships_push {entry : Entry} (performed : perform world me s own (.push entry) rest = some effect) :
    Ships world s own (.push entry) rest effect := by
  by_cases stopped : s.scheduled.stopped = true
  · have refused : s.scheduled.push? entry = none := if_pos stopped
    simp only [perform, refused] at performed
    refine .handle performed ?_ rfl (.refused stopped)
    simp [movements, Instruction.movements, stopped]
  · have pushed : s.scheduled.push? entry = some { s.scheduled with queue := Scheduled.Shared.place entry s.scheduled.queue } :=
      if_neg stopped
    simp only [perform, pushed] at performed
    refine .goOn performed ?_ (.pushed (Bool.eq_false_iff.mpr stopped)) List.perm_append_comm ?_
    · simp [movements, Instruction.movements, stopped]
    · have placed := (perm_place entry s.scheduled.queue).map Freight.queued
      rw [List.filterMap_nil, List.append_nil]
      exact (placed.append_left _).trans List.perm_middle

private theorem ships_fire {entry : Scheduled.Entry Periodic}
    (performed : perform world me s own (.fire entry) rest = some effect) :
    Ships world s own (.fire entry) rest effect := by
  simp only [perform] at performed
  split at performed
  · next ends =>
    refine .handle performed ?_ rfl .skipped
    simp [movements, Instruction.movements, ends]
  · next lives =>
    have noted : movements world s own (.fire entry) [.began entry.task.task] = [.started entry.task.task] := by
      simp [movements, Instruction.movements, lives, Event.movement?]
    refine .handle performed noted rfl ?_
    rw [List.filterMap_append, freight_guarded]
    exact .fired

private theorem ships_closeScheduled (performed : perform world me s own .closeScheduled rest = some effect) :
    Ships world s own .closeScheduled rest effect := by
  have before : (s.freight ++ (freight? .closeScheduled).toList).Perm
      (s.scheduled.queue.map .queued ++ s.funnel.queue.map .coming) := by
    rw [show freight? .closeScheduled = none from rfl, Option.toList_none, List.append_nil]
    exact List.perm_append_comm
  refine .goOn performed (List.append_nil _) .evicted before ?_
  have given : (s.scheduled.queue.map (fun entry : Entry => Instruction.abandon entry.task) ++
      [Instruction.collect]).filterMap freight? = s.scheduled.queue.map fun entry => .leaving entry.task := by
    rw [List.filterMap_append, List.filterMap_map]
    exact (List.append_nil _).trans (congrFun List.filterMap_eq_map _)
  rw [given]
  refine List.perm_append_comm.trans (.append_left _ (.of_eq ?_))
  exact List.append_nil _

/-- What the performance of any instruction does with entries. -/
theorem ships_of_perform (orderly : Orderly (instruction :: rest)) (unladen : Unladen (instruction :: rest))
    (performed : perform world me s own instruction rest = some effect) : Ships world s own instruction rest effect := by
  cases instruction with
  | submit => exact ships_submit orderly unladen performed
  | act => exact ships_action orderly unladen performed
  | run => exact ships_run performed
  | cancel => exact ships_cancel performed
  | take => exact ships_take performed
  | funnel => exact ships_funnel performed
  | immediate => exact ships_immediate performed
  | draw deadline work funnelled =>
    refine .handle performed rfl rfl ?_
    cases funnelled <;> exact .drawn
  | push => exact ships_push performed
  | abandon work =>
    cases work with
    | once => exact .handle performed rfl rfl .gaveUp
    | periodic => exact .handle performed rfl (freight_modifyPeriodic _ _ _) .gaveUp
  | drop | store | conclude | join =>
    simp only [perform] at performed
    split at performed <;> first | exact .aside performed rfl rfl rfl rfl | cases performed
  | caught task => exact .handle performed rfl rfl .ended
  | publish | closeImmediate | exit => exact .aside performed rfl rfl rfl rfl
  | markCancelled | markInterrupt => exact .aside performed rfl (freight_modifyPeriodic _ _ _) rfl rfl
  | answer task effective logged =>
    refine .aside performed ?_ rfl rfl rfl
    cases logged <;> rfl
  | fire => exact ships_fire performed
  | count entry =>
    simp only [perform] at performed
    split at performed
    · next failed =>
      refine .handle performed ?_ (freight_modifyPeriodic _ _ _) (.ceased rfl)
      simp [movements, Instruction.movements, failed, Except.toBool]
    · next ended =>
      refine .handle performed ?_ (freight_modifyPeriodic _ _ _) .counted
      simp [movements, Instruction.movements, ended, Except.toBool]
  | recheck entry =>
    simp only [perform] at performed
    split at performed
    · next ends =>
      refine .handle performed ?_ rfl (.ceased rfl)
      simp [movements, Instruction.movements, ends]
    · next lives =>
      refine .handle performed ?_ rfl .rechecked
      simp [movements, Instruction.movements, lives]
  | renew entry =>
    simp only [perform] at performed
    split at performed
    · next deadline next =>
      refine .handle performed ?_ rfl (.renewed next)
      simp [movements, Instruction.movements, next, Event.movement?]
    · next never =>
      refine .raise performed orderly unladen rfl ?_ (.ceased rfl)
      simp [movements, Instruction.movements, never]
  | closeScheduled => exact ships_closeScheduled performed
  | collect =>
    refine .aside performed rfl rfl rfl ?_
    refine List.filterMap_eq_nil_iff.mpr fun i member => ?_
    obtain ⟨thread, -, rfl⟩ := List.mem_map.mp member
    rfl

/-- The same for the whole pool: what all others have in hand stays as it is. -/
theorem freight_of_perform (before after : List (Thread Own Instruction)) {shared : State}
    (orderly : Orderly (instruction :: rest)) (unladen : Unladen (instruction :: rest))
    (performed : perform world me shared own instruction rest = some effect) :
    ∃ gone new others, Hauls world.now shared instruction gone new (movements world shared own instruction effect.events) ∧
      (freight ⟨shared, before ++ ⟨own, instruction :: rest⟩ :: after⟩).Perm (gone ++ others) ∧
      (freight ⟨effect.shared, before ++ effect.thread :: (after ++ effect.started)⟩).Perm (new ++ others) := by
  obtain ⟨starts, gone, new, others, moves, held, held'⟩ := ships_of_perform orderly unladen performed
  have none : (effect.started.flatMap Thread.todo).filterMap freight? = [] := by
    refine List.filterMap_eq_nil_iff.mpr fun i member => ?_
    obtain ⟨thread, started, here⟩ := List.mem_flatMap.mp member
    exact List.filterMap_eq_nil_iff.mp (starts thread started) i here
  have parts : ∀ (shared : State) (one : Thread Own Instruction) (later : List (Thread Own Instruction)),
      (freight ⟨shared, before ++ one :: later⟩).Perm
        (shared.freight ++ one.todo.filterMap freight? ++ ((before ++ later).flatMap Thread.todo).filterMap freight?) := by
    intro shared one later
    simp only [freight, System.todo, List.flatMap_append, List.flatMap_cons, List.filterMap_append, List.append_assoc]
    exact (List.perm_append_comm_assoc _ _ _).append_left _
  refine ⟨gone, new, others ++ ((before ++ after).flatMap Thread.todo).filterMap freight?, moves, ?_, ?_⟩
  · rw [← List.append_assoc]
    exact (parts _ _ _).trans (held.append_right _)
  · rw [← List.append_assoc]
    refine (parts _ _ _).trans ?_
    rw [← List.append_assoc, List.flatMap_append, List.filterMap_append, none, List.append_nil]
    exact held'.append_right _

end Perform

end PeerSubstrate.Executor.Pool
