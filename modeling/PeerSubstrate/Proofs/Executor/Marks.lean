import PeerSubstrate.Proofs.Executor.Bearers

/-!
# Interrupt marks

A thread publishes the mark of the task it runs, and the mark itself is kept with the task. What a step does to what its thread
has published and to the marks of tasks is said once (`Heeds`). So a thread publishes a mark exactly while the script of its
task is running (`Shown`), and a repeating task is marked right after the cancellation that stopped it (`Prompt`).
-/

namespace PeerSubstrate.Executor.Pool
open PeerSubstrate.Time PeerSubstrate.Concurrency
open Instruction (unwind)

namespace Instruction

/-- The end of a script, and where a mark is published. -/
def brackets : Instruction → Bool
  | .caught _ | .publish _ => true
  | _ => false

/-- A cancellation has stopped a repeating task, and marks it. -/
def settles : Instruction → Bool
  | .markCancelled _ | .markInterrupt _ => true
  | _ => false

/-- The mark of the task is set by this. -/
def interrupts (task : Nat) : Instruction → Bool
  | .markInterrupt other => other == task
  | _ => false

/-- Here, or in what follows from it, a script may begin. -/
def works : Instruction → Bool
  | .take | .fire _ | .run _ => true
  | .immediate step => step.ofWorker
  | _ => false

/-- Nothing about marks happens here, and nothing but what may follow from `i`. -/
def FollowsFrom (i j : Instruction) : Prop := j.brackets = false ∧ j.settles = false ∧ (j.works = true → i.works = true)

end Instruction

open Instruction (FollowsFrom)

/-- A record as it was, as far as it concerns marks. -/
inductive Ages : Option Record → Option Record → Prop
  | absent : Ages none none
  | fresh {record kind} : Fresh record kind → Ages none (some record)
  | detached : Ages (some .detached) (some .detached)
  | oneOff {cell cell'} : cell'.interrupt = cell.interrupt → Ages (some (.oneOff cell)) (some (.oneOff cell'))
  | periodic {state state'} : state'.interrupt = state.interrupt → (state.done = true → state'.done = true) →
      Ages (some (.periodic state)) (some (.periodic state'))

/-- No mark changes, and no cancellation takes effect. -/
structure Leaves (records records' : List Record) (events : List Event) : Prop where
  ages : ∀ task : Nat, Ages records[task]? records'[task]?
  quiet : ∀ task mayInterrupt, .cancelled task mayInterrupt ∉ events

section Leaves

variable {s : State} {records : List Record} {record : Record} {kind : Custody} {task : Nat} {events : List Event}

theorem Ages.same (record : Option Record) : Ages record record := by
  cases record with
  | none => exact .absent
  | some record =>
    cases record with
    | detached => exact .detached
    | oneOff => exact .oneOff rfl
    | periodic => exact .periodic rfl id

/-- No event of a cancellation. -/
def Calm (events : List Event) : Prop := ∀ task mayInterrupt, Event.cancelled task mayInterrupt ∉ events

private theorem Leaves.same (calm : Calm events) : Leaves records records events := ⟨fun _ => .same _, calm⟩

private theorem Leaves.add (fresh : Fresh record kind) : Leaves records (records ++ [record]) [] := by
  refine ⟨fun task => ?_, fun _ _ => List.not_mem_nil⟩
  rcases Nat.lt_trichotomy task records.length with old | rfl | later
  · rw [List.getElem?_append_left old]
    exact .same _
  · rw [List.getElem?_concat_length, List.getElem?_eq_none (Nat.le_refl _)]
    exact .fresh fresh
  · rw [List.getElem?_eq_none (by omega), List.getElem?_eq_none (by simp; omega)]
    exact .absent

private theorem Leaves.set {old : Record} (found : records[task]? = some old) (ages : Ages (some old) (some record))
    (calm : Calm events) :
    Leaves records (records.set task record) events := by
  refine ⟨fun other => ?_, calm⟩
  by_cases same : task = other
  · subst same
    rw [List.getElem?_set_self (List.getElem?_eq_some_iff.mp found).1, found]
    exact ages
  · rw [List.getElem?_set_ne same]
    exact .same _

private theorem Leaves.modifyPeriodic {f : PeriodicState → PeriodicState}
    (keeps : ∀ state, (f state).interrupt = state.interrupt)
    (lasting : ∀ state, state.done = true → (f state).done = true) : Leaves s.records (s.modifyPeriodic task f).records [] := by
  unfold State.modifyPeriodic
  split
  · next state found =>
    exact .set (periodic?_eq_some_iff.mp found) (.periodic (keeps state) (lasting state)) fun _ _ => List.not_mem_nil
  · exact .same fun _ _ => List.not_mem_nil

end Leaves

/-! ## Steps -/

/-- The task has a handle. -/
def Handled (records : List Record) (task : Nat) : Prop :=
  (∃ cell, records[task]? = some (.oneOff cell)) ∨ ∃ state, records[task]? = some (.periodic state)

/-- What a step does to the mark that its thread has published, and to the marks of tasks. A script begins under the
mark of its task, and under none if that has no handle. A cancellation finds a one-off task, or a repeating one that is
going on, which is marked by later steps of the same thread. -/
inductive Heeds (records : List Record) :
    Thread Own Instruction → List Record → Thread Own Instruction → List Event → Prop
  | on {own own' i rest new records' events} : i.brackets = false → i.settles = false → own'.interrupt = own.interrupt →
      (∀ j ∈ new, FollowsFrom i j) → Leaves records records' events → Heeds records ⟨own, i :: rest⟩ records' ⟨own', new ++ rest⟩ events
  | raised {own own' i rest} : i.brackets = false → i.settles = false → own'.interrupt = own.interrupt →
      Heeds records ⟨own, i :: rest⟩ records ⟨own', unwind rest⟩ []
  | ran {own own' i j rest task records' events} (script : Script) : i.brackets = false → i.settles = false → i.works = true →
      own'.interrupt = own.interrupt → Handled records task → FollowsFrom i j → Leaves records records' events →
      Heeds records ⟨own, i :: rest⟩ records' ⟨own', Instruction.guarded task script own.interrupt ++ (j :: rest)⟩ events
  | detached {own own' job rest events} : own'.interrupt = own.interrupt → records[job.task]? = some .detached → Calm events →
      Heeds records ⟨own, .run job :: rest⟩ records ⟨own', job.script.map .act ++ (.caught job.task :: rest)⟩ events
  | ended {own task rest events} : Calm events → Heeds records ⟨own, .caught task :: rest⟩ records ⟨own, rest⟩ events
  | published {own shown rest} :
      Heeds records ⟨own, .publish shown :: rest⟩ records ⟨{ own with interrupt := shown }, rest⟩ []
  | cancelled {own task rest cell mayInterrupt logged events} : records[task]? = some (.oneOff cell) →
      (∀ other interrupting, .cancelled other interrupting ∈ events ↔
        other = task ∧ interrupting = mayInterrupt ∧ (cell.cancel mayInterrupt).1 = true) →
      Heeds records ⟨own, .cancel task mayInterrupt logged :: rest⟩
        (records.set task (.oneOff (cell.cancel mayInterrupt).2))
        ⟨own, .answer task (cell.cancel mayInterrupt).1 logged :: rest⟩ events
  | stopped {own task rest state mayInterrupt logged} : records[task]? = some (.periodic state) → state.done = false →
      Heeds records ⟨own, .cancel task mayInterrupt logged :: rest⟩
        (records.set task (.periodic { state with done := true }))
        ⟨own, .markCancelled task :: ((if mayInterrupt then [.markInterrupt task] else []) ++ .answer task true logged :: rest)⟩
        [.cancelled task mayInterrupt]
  | settled {own task rest records'} : Leaves records records' [] →
      Heeds records ⟨own, .markCancelled task :: rest⟩ records' ⟨own, rest⟩ []
  | interrupted {own task rest state} : records[task]? = some (.periodic state) →
      Heeds records ⟨own, .markInterrupt task :: rest⟩ (records.set task (.periodic { state with interrupt := true }))
        ⟨own, rest⟩ [.interrupted task]
  | void {own task rest} : (∀ state, records[task]? ≠ some (.periodic state)) →
      Heeds records ⟨own, .markInterrupt task :: rest⟩ records ⟨own, rest⟩ [.interrupted task]

section Perform

variable {world : World} {me : Nat} {s s' : State} {own own' : Own} {instruction : Instruction} {rest : List Instruction}
  {effect : Effect State Own Instruction Event}

/-- What a step does about marks, with this effect. -/
abbrev Heeding (s : State) (own : Own) (instruction : Instruction) (rest : List Instruction)
    (effect : Effect State Own Instruction Event) : Prop :=
  Heeds s.records ⟨own, instruction :: rest⟩ effect.shared.records effect.thread effect.events

private theorem heeds_goOn {todo : List Instruction} {events : List Event}
    (performed : Pool.goOn s' own' rest todo events = some effect)
    (light : instruction.brackets = false ∧ instruction.settles = false) (same : own'.interrupt = own.interrupt)
    (follows : ∀ j ∈ todo, FollowsFrom instruction j) (leaves : Leaves s.records s'.records events) :
    Heeding s own instruction rest effect := by
  cases performed
  exact .on light.1 light.2 same follows leaves

/-- No record changes, and nothing is seen. -/
theorem heeds_quietly {todo : List Instruction} (performed : Pool.goOn s' own rest todo = some effect)
    (same : s'.records = s.records) (light : instruction.brackets = false ∧ instruction.settles = false)
    (follows : ∀ j ∈ todo, FollowsFrom instruction j) : Heeding s own instruction rest effect :=
  heeds_goOn performed light rfl follows (same ▸ .same fun _ _ => List.not_mem_nil)

private theorem heeds_raise {message : String} (performed : Pool.raise s own rest message = some effect)
    (light : instruction.brackets = false ∧ instruction.settles = false) : Heeding s own instruction rest effect := by
  cases performed
  exact .raised light.1 light.2 rfl

private theorem heeds_submit {now : Instant} {channel : Channel} {id : String} {scripts : List Script}
    (performed : performSubmit s own rest now channel id scripts = some effect) :
    Heeding s own (.submit channel id scripts) rest effect := by
  have sends : ∀ job, FollowsFrom (.submit channel id scripts) (.immediate (.send job)) := fun _ => ⟨rfl, rfl, Bool.noConfusion⟩
  have draws : ∀ deadline work funnelled, FollowsFrom (.submit channel id scripts) (.draw deadline work funnelled) :=
    fun _ _ _ => ⟨rfl, rfl, Bool.noConfusion⟩
  cases channel with
  | detached => exact heeds_goOn performed ⟨rfl, rfl⟩ rfl (by simpa using sends _) (.add .detached)
  | immediate => exact heeds_goOn performed ⟨rfl, rfl⟩ rfl (by simpa using sends _) (.add .oneOff)
  | dedicated | atInstant => exact heeds_goOn performed ⟨rfl, rfl⟩ rfl (by simpa using draws _ _ _) (.add .oneOff)
  | after =>
    simp only [performSubmit] at performed
    split at performed
    · exact heeds_goOn performed ⟨rfl, rfl⟩ rfl (by simpa using draws _ _ _) (.add .oneOff)
    · exact heeds_raise performed ⟨rfl, rfl⟩
  | repeating =>
    simp only [performSubmit] at performed
    split at performed
    · exact heeds_goOn performed ⟨rfl, rfl⟩ rfl (by simpa using draws _ _ _) (.add .periodic)
    · exact heeds_raise performed ⟨rfl, rfl⟩

private theorem heeds_action {action : Action} (performed : performAction s own rest world action = some effect) :
    Heeding s own (.act action) rest effect := by
  cases action with
  | log | nameThread | reportInterrupt =>
    exact heeds_goOn performed ⟨rfl, rfl⟩ rfl (List.forall_mem_nil _) (.same (by simp [Calm]))
  | result => exact heeds_goOn performed ⟨rfl, rfl⟩ rfl (List.forall_mem_nil _) (.same (by simp [Calm]))
  | panic => exact heeds_raise performed ⟨rfl, rfl⟩
  | cancel id mayInterrupt =>
    simp only [performAction] at performed
    split at performed
    · exact heeds_quietly performed rfl ⟨rfl, rfl⟩ (List.forall_mem_singleton.mpr ⟨rfl, rfl, Bool.noConfusion⟩)
    · exact heeds_goOn performed ⟨rfl, rfl⟩ rfl (List.forall_mem_nil _) (.same (by simp [Calm]))
  | shutdown =>
    exact heeds_quietly performed rfl ⟨rfl, rfl⟩
      (List.forall_mem_cons.mpr ⟨⟨rfl, rfl, Bool.noConfusion⟩, List.forall_mem_singleton.mpr ⟨rfl, rfl, Bool.noConfusion⟩⟩)
  | submit => exact heeds_quietly performed rfl ⟨rfl, rfl⟩ (List.forall_mem_singleton.mpr ⟨rfl, rfl, Bool.noConfusion⟩)
  | gate =>
    simp only [performAction] at performed
    split at performed
    · exact heeds_quietly performed rfl ⟨rfl, rfl⟩ (List.forall_mem_nil _)
    · cases performed

private theorem heeds_run {job : Job}
    (plain : s.records[job.task]? = some .detached ∨ ∃ cell, s.records[job.task]? = some (.oneOff cell))
    (performed : performRun s own rest job = some effect) : Heeding s own (.run job) rest effect := by
  unfold performRun at performed
  split at performed
  · next cell found =>
    split at performed
    · next cell' begins =>
      have kept : cell'.interrupt = cell.interrupt := by
        unfold TaskCell.begin? at begins
        split at begins <;> cases begins
        rfl
      cases performed
      rw [Heeding, List.append_assoc]
      exact .ran _ rfl rfl rfl rfl (.inl ⟨cell, found⟩) ⟨rfl, rfl, Bool.noConfusion⟩ (.set found (.oneOff kept) (by simp [Calm]))
    · exact heeds_quietly performed rfl ⟨rfl, rfl⟩ (List.forall_mem_nil _)
  · next other =>
    have isDetached : s.records[job.task]? = some .detached := plain.resolve_right fun ⟨cell, found⟩ => other cell found
    cases performed
    rw [Heeding, List.append_assoc]
    exact .detached rfl isDetached (by simp [Calm])

private theorem mem_cancelled (task : Nat) (mayInterrupt effective interrupts : Bool) (other : Nat) (interrupting : Bool) :
    .cancelled other interrupting ∈ (if effective = true then [Event.cancelled task mayInterrupt] else []) ++
        (if interrupts = true then [.interrupted task] else []) ↔
      other = task ∧ interrupting = mayInterrupt ∧ effective = true := by
  cases effective <;> cases interrupts <;> simp

private theorem heeds_cancelled {task : Nat} {cell : TaskCell Int64} {mayInterrupt logged : Bool} {events : List Event}
    (found : s.records[task]? = some (.oneOff cell))
    (performed : Pool.goOn s' own rest [.answer task (cell.cancel mayInterrupt).1 logged] events = some effect)
    (changed : s'.records = s.records.set task (.oneOff (cell.cancel mayInterrupt).2))
    (told : ∀ other interrupting, .cancelled other interrupting ∈ events ↔
      other = task ∧ interrupting = mayInterrupt ∧ (cell.cancel mayInterrupt).1 = true) :
    Heeding s own (.cancel task mayInterrupt logged) rest effect := by
  cases performed
  rw [Heeding, changed]
  exact .cancelled found told

private theorem records_modifyPeriodic {task : Nat} {state : PeriodicState} (found : s.records[task]? = some (.periodic state))
    (f : PeriodicState → PeriodicState) : (s.modifyPeriodic task f).records = s.records.set task (.periodic (f state)) := by
  rw [State.modifyPeriodic, periodic?_eq_some_iff.mpr found]

private theorem heeds_cancel {task : Nat} {mayInterrupt logged : Bool}
    (performed : performCancel s own rest task mayInterrupt logged = some effect) :
    Heeding s own (.cancel task mayInterrupt logged) rest effect := by
  have answers : ∀ j ∈ [Instruction.answer task false logged], FollowsFrom (.cancel task mayInterrupt logged) j :=
    List.forall_mem_singleton.mpr ⟨rfl, rfl, Bool.noConfusion⟩
  unfold performCancel at performed
  split at performed
  · next cell found => exact heeds_cancelled found performed rfl (mem_cancelled _ _ _ _)
  · next state found =>
    split at performed
    · exact heeds_quietly performed rfl ⟨rfl, rfl⟩ answers
    · next going =>
      cases performed
      rw [Heeding, records_modifyPeriodic found]
      simp only [List.append_assoc, List.cons_append, List.nil_append]
      exact .stopped found (Bool.eq_false_iff.mpr going)
  · exact heeds_quietly performed rfl ⟨rfl, rfl⟩ answers

private theorem heeds_take {now : Instant} (performed : performTake s own rest now = some effect) :
    Heeding s own .take rest effect := by
  unfold performTake at performed
  split at performed
  · exact heeds_quietly performed rfl ⟨rfl, rfl⟩ (List.forall_mem_nil _)
  · cases performed
  · split at performed <;>
      exact heeds_goOn performed ⟨rfl, rfl⟩ rfl
        (List.forall_mem_cons.mpr ⟨⟨rfl, rfl, fun _ => rfl⟩, List.forall_mem_singleton.mpr ⟨rfl, rfl, id⟩⟩) (.same (by simp [Calm]))

/-- Only a step of a worker leads to one of a worker, or to a job. -/
theorem heeds_immediate {step : Immediate.Step Job} (performed : perform world me s own (.immediate step) rest = some effect) :
    Heeding s own (.immediate step) rest effect := by
  obtain ⟨⟨immediate, next⟩, performs, rfl⟩ := Option.map_eq_some_iff.mp performed
  refine .on rfl rfl rfl (fun j member => ?_) (.same fun task mayInterrupt member => ?_)
  · obtain ⟨one, inNext, here⟩ := List.mem_flatMap.mp member
    have shape : j.brackets = false ∧ j.settles = false := by
      cases one <;> simp [Instruction.ofImmediate] at here <;> subst here <;> exact ⟨rfl, rfl⟩
    refine ⟨shape.1, shape.2, fun works => ?_⟩
    cases step with
    | park | choose | receive | unpark | consider | retire | stop => rfl
    | countThreads | countQueue =>
      cases performs
      cases List.mem_singleton.mp inNext
      cases List.mem_singleton.mp here
      cases works
    | send =>
      simp only [Immediate.Shared.perform] at performs
      split at performs <;> cases performs <;> cases List.mem_singleton.mp inNext <;>
        cases List.mem_singleton.mp here <;> cases works
    | countIdle =>
      simp only [Immediate.Shared.perform] at performs
      split at performs <;> cases performs
      · cases inNext
      · cases List.mem_singleton.mp inNext
        cases List.mem_singleton.mp here
        cases works
    | claim =>
      simp only [Immediate.Shared.perform] at performs
      split at performs <;> cases performs <;> cases List.mem_singleton.mp inNext
      · cases here
      · cases List.mem_singleton.mp here
        cases works
  · obtain ⟨one, -, told⟩ := List.mem_filterMap.mp member
    split at told
    · split at told <;> cases told
    · cases told
    · cases told
    · cases told

private theorem heeds_drop {job : Job} (performed : perform world me s own (.drop job) rest = some effect) :
    Heeding s own (.drop job) rest effect := by
  simp only [perform] at performed
  split at performed
  · next cell isCell =>
    have kept : cell.abandon.interrupt = cell.interrupt := by
      unfold TaskCell.abandon
      split <;> rfl
    exact heeds_goOn performed ⟨rfl, rfl⟩ rfl (List.forall_mem_nil _)
      (.set (cell?_eq_some_iff.mp isCell) (.oneOff kept) (by simp [Calm]))
  · exact heeds_quietly performed rfl ⟨rfl, rfl⟩ (List.forall_mem_nil _)

private theorem heeds_fire {entry : Scheduled.Entry Periodic}
    (repeats : ∃ state, s.records[entry.task.task]? = some (.periodic state))
    (performed : perform world me s own (.fire entry) rest = some effect) : Heeding s own (.fire entry) rest effect := by
  simp only [perform] at performed
  split at performed
  · exact heeds_quietly performed rfl ⟨rfl, rfl⟩ (List.forall_mem_nil _)
  · cases performed
    rw [Heeding, List.append_assoc]
    exact .ran _ rfl rfl rfl rfl (.inr repeats) ⟨rfl, rfl, Bool.noConfusion⟩ (.same (by simp [Calm]))

private theorem heeds_markInterrupt {task : Nat} (performed : perform world me s own (.markInterrupt task) rest = some effect) :
    Heeding s own (.markInterrupt task) rest effect := by
  cases performed
  by_cases isPeriodic : ∃ state, s.records[task]? = some (.periodic state)
  · obtain ⟨state, found⟩ := isPeriodic
    rw [Heeding, records_modifyPeriodic found]
    exact .interrupted found
  · have none : s.periodic? task = none := Option.eq_none_iff_forall_ne_some.mpr fun state found =>
      isPeriodic ⟨state, periodic?_eq_some_iff.mp found⟩
    have same : (s.modifyPeriodic task ({ · with interrupt := true })).records = s.records := by
      rw [State.modifyPeriodic, none]
    rw [Heeding, same]
    exact .void fun state found => isPeriodic ⟨state, found⟩

/-- Every step heeds marks, if jobs are of one-off tasks and entries that repeat of repeating ones. -/
theorem heeds_of_perform
    (plain : ∀ job, instruction = .run job →
      s.records[job.task]? = some .detached ∨ ∃ cell, s.records[job.task]? = some (.oneOff cell))
    (repeats : ∀ entry, instruction = .fire entry → ∃ state, s.records[entry.task.task]? = some (.periodic state))
    (performed : perform world me s own instruction rest = some effect) : Heeding s own instruction rest effect := by
  cases instruction with
  | submit => exact heeds_submit performed
  | act => exact heeds_action performed
  | run job => exact heeds_run (plain job rfl) performed
  | cancel => exact heeds_cancel performed
  | take => exact heeds_take performed
  | immediate => exact heeds_immediate performed
  | draw deadline work funnelled =>
    refine heeds_quietly performed rfl ⟨rfl, rfl⟩ ?_
    cases funnelled <;> exact List.forall_mem_singleton.mpr ⟨rfl, rfl, Bool.noConfusion⟩
  | funnel step =>
    refine heeds_quietly performed rfl ⟨rfl, rfl⟩ fun j member => ?_
    obtain ⟨next, -, rfl⟩ := List.mem_map.mp member
    cases next <;> exact ⟨rfl, rfl, Bool.noConfusion⟩
  | push =>
    simp only [perform] at performed
    split at performed
    · exact heeds_quietly performed rfl ⟨rfl, rfl⟩ (List.forall_mem_nil _)
    · exact heeds_quietly performed rfl ⟨rfl, rfl⟩ (List.forall_mem_singleton.mpr ⟨rfl, rfl, Bool.noConfusion⟩)
  | abandon work =>
    cases work with
    | once job =>
      exact heeds_quietly performed rfl ⟨rfl, rfl⟩ (List.forall_mem_singleton.mpr ⟨rfl, rfl, Bool.noConfusion⟩)
    | periodic =>
      exact heeds_goOn performed ⟨rfl, rfl⟩ rfl (List.forall_mem_nil _) (.modifyPeriodic (fun _ => rfl) fun _ _ => rfl)
  | drop => exact heeds_drop performed
  | caught =>
    cases performed
    exact .ended (by simp [Calm])
  | publish =>
    cases performed
    exact .published
  | conclude =>
    simp only [perform] at performed
    split at performed
    · exact heeds_quietly performed rfl ⟨rfl, rfl⟩ (List.forall_mem_singleton.mpr ⟨rfl, rfl, Bool.noConfusion⟩)
    · exact heeds_quietly performed rfl ⟨rfl, rfl⟩ (List.forall_mem_nil _)
  | store task result =>
    simp only [perform] at performed
    split at performed
    · next cell isCell =>
      exact heeds_goOn performed ⟨rfl, rfl⟩ rfl (List.forall_mem_nil _)
        (.set (cell?_eq_some_iff.mp isCell) (.oneOff rfl) (by simp [Calm]))
    · exact heeds_quietly performed rfl ⟨rfl, rfl⟩ (List.forall_mem_nil _)
  | fire entry => exact heeds_fire (repeats entry rfl) performed
  | count entry =>
    simp only [perform] at performed
    split at performed
    · exact heeds_goOn performed ⟨rfl, rfl⟩ rfl (List.forall_mem_nil _) (.modifyPeriodic (fun _ => rfl) fun _ _ => rfl)
    · exact heeds_goOn performed ⟨rfl, rfl⟩ rfl (List.forall_mem_singleton.mpr ⟨rfl, rfl, Bool.noConfusion⟩)
        (.modifyPeriodic (fun _ => rfl) fun _ => id)
  | recheck entry =>
    simp only [perform] at performed
    split at performed
    · exact heeds_quietly performed rfl ⟨rfl, rfl⟩ (List.forall_mem_nil _)
    · exact heeds_quietly performed rfl ⟨rfl, rfl⟩ (List.forall_mem_singleton.mpr ⟨rfl, rfl, Bool.noConfusion⟩)
  | renew entry =>
    simp only [perform] at performed
    split at performed
    · exact heeds_goOn performed ⟨rfl, rfl⟩ rfl (List.forall_mem_singleton.mpr ⟨rfl, rfl, Bool.noConfusion⟩)
        (.same (by simp [Calm]))
    · exact heeds_raise performed ⟨rfl, rfl⟩
  | markCancelled task =>
    cases performed
    exact .settled (.modifyPeriodic (fun _ => rfl) fun _ => id)
  | markInterrupt => exact heeds_markInterrupt performed
  | answer task effective logged =>
    exact heeds_goOn performed ⟨rfl, rfl⟩ rfl (List.forall_mem_nil _) (.same (by cases logged <;> simp [Calm]))
  | closeImmediate | exit => exact heeds_quietly performed rfl ⟨rfl, rfl⟩ (List.forall_mem_nil _)
  | closeScheduled =>
    refine heeds_quietly performed rfl ⟨rfl, rfl⟩ fun j member => ?_
    simp only [List.mem_append, List.mem_map, List.mem_singleton] at member
    rcases member with ⟨entry, -, rfl⟩ | rfl <;> exact ⟨rfl, rfl, Bool.noConfusion⟩
  | collect =>
    refine heeds_quietly performed rfl ⟨rfl, rfl⟩ fun j member => ?_
    obtain ⟨thread, -, rfl⟩ := List.mem_map.mp member
    exact ⟨rfl, rfl, Bool.noConfusion⟩
  | join =>
    simp only [perform] at performed
    split at performed
    · exact heeds_quietly performed rfl ⟨rfl, rfl⟩ (List.forall_mem_nil _)
    · cases performed

end Perform

end PeerSubstrate.Executor.Pool
