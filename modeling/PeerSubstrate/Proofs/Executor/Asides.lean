import PeerSubstrate.Proofs.Executor.Holdings

/-!
# Outside of the queues

Most of what a thread does leaves the queues of the pool and everything about them alone. What such an instruction does is
said once (`Aside`): what it may lead to, in whatever order, a panic included, and which task may begin or end by it.
-/

namespace PeerSubstrate.Executor.Pool
open PeerSubstrate.Time PeerSubstrate.Concurrency
open Instruction (custody? unwind)

namespace Instruction

/-- The task that this holds, or whose run it ends. -/
def task? : Instruction → Option Nat
  | .conclude task | .store task _ => some task
  | i => i.custody?.map Prod.snd

/-- A step of a pool or of the way into it, or a worker's look for work. -/
def steps : Instruction → Bool
  | .immediate _ | .funnel _ | .take => true
  | _ => false

/-- The queues and what belongs to them may change by this. -/
def pooled : Instruction → Bool
  | .draw _ _ _ | .push _ | .closeImmediate | .closeScheduled => true
  | i => i.steps

end Instruction

/-- The immediate queue takes a job in, or gives one out. -/
def Event.stirs : Event → Bool
  | .accepted _ | .taken _ => true
  | _ => false

/-- The task has not begun, and has not been cancelled or given up. -/
def Pending (records : List Record) (task : Nat) : Prop :=
  ∃ cell, records[task]? = some (.oneOff cell) ∧ cell.state = .pending

/-- The submission of a new task comes to this. -/
def Submits (records : List Record) (i : Instruction) : Prop :=
  (∃ script, i = .immediate (.send ⟨records.length, script⟩)) ∨
  ∃ deadline work funnelled, i = .draw deadline work funnelled ∧ work.custody.2 = records.length

/-- A thread does something outside of the queues: it goes on to `new` things and to a part of what it had before. -/
structure Aside (s : State) (instruction : Instruction) (rest : List Instruction)
    (effect : Effect State Own Instruction Event) : Prop where
  immediate : effect.shared.immediate = s.immediate
  funnel : effect.shared.funnel = s.funnel
  scheduled : effect.shared.scheduled = s.scheduled
  started : effect.started = []
  quiet : ∀ event ∈ effect.events, event.stirs = false
  begins : ∀ task, .began task ∈ effect.events → instruction.task? = some task
  spares : ∀ task, Pending s.records task → instruction.task? ≠ some task →
    Pending effect.shared.records task ∨ ∃ mayInterrupt, .cancelled task mayInterrupt ∈ effect.events
  goesOn : ∃ new behind, effect.thread.todo = new ++ behind ∧ behind <:+ rest ∧
    ((∀ i ∈ new, i.steps = false ∧ (i.task? = none ∨ i.task? = instruction.task?)) ∨
      ∃ i, new = [i] ∧ Submits s.records i ∧ effect.shared.records.length = s.records.length + 1)

section Perform

variable {world : World} {me : Nat} {s s' : State} {own own' : Own} {instruction : Instruction} {rest : List Instruction}
  {effect : Effect State Own Instruction Event}

/-- The queues are what they were. -/
def State.KeepsQueues (s s' : State) : Prop :=
  s'.immediate = s.immediate ∧ s'.funnel = s.funnel ∧ s'.scheduled = s.scheduled

private theorem Aside.goOn {todo : List Instruction} {events : List Event}
    (performed : Pool.goOn s' own' rest todo events = some effect) (queues : s.KeepsQueues s')
    (quiet : ∀ event ∈ events, event.stirs = false) (begins : ∀ task, .began task ∈ events → instruction.task? = some task)
    (spares : ∀ task, Pending s.records task → instruction.task? ≠ some task →
      Pending s'.records task ∨ ∃ mayInterrupt, .cancelled task mayInterrupt ∈ events)
    (goesOn : ∀ i ∈ todo, i.steps = false ∧ (i.task? = none ∨ i.task? = instruction.task?)) :
    Aside s instruction rest effect := by
  cases performed
  exact ⟨queues.1, queues.2.1, queues.2.2, rfl, quiet, begins, spares, todo, rest, rfl, List.suffix_refl _, .inl goesOn⟩

/-- No record changes, and nothing is told of tasks. -/
theorem Aside.quietly {todo : List Instruction} (performed : Pool.goOn s own' rest todo = some effect)
    (goesOn : ∀ i ∈ todo, i.steps = false ∧ (i.task? = none ∨ i.task? = instruction.task?)) :
    Aside s instruction rest effect :=
  .goOn performed ⟨rfl, rfl, rfl⟩ (by simp) (by simp) (fun _ pending _ => .inl pending) goesOn

private theorem Aside.raise {message : String} (performed : Pool.raise s own rest message = some effect) :
    Aside s instruction rest effect := by
  cases performed
  exact ⟨rfl, rfl, rfl, rfl, by simp, by simp, fun _ pending _ => .inl pending, [], unwind rest, rfl,
    List.dropWhile_suffix _, .inl (by simp)⟩

theorem Pending.append {records : List Record} {task : Nat} (pending : Pending records task) (more : List Record) :
    Pending (records ++ more) task := by
  obtain ⟨cell, found, state⟩ := pending
  have inside := (List.getElem?_eq_some_iff.mp found).1
  exact ⟨cell, (List.getElem?_append_left inside).trans found, state⟩

private theorem Pending.set {records : List Record} {task other : Nat} (pending : Pending records task) (others : other ≠ task)
    (record : Record) : Pending (records.set other record) task := by
  obtain ⟨cell, found, state⟩ := pending
  exact ⟨cell, (List.getElem?_set_ne others).trans found, state⟩

private theorem Pending.modifyPeriodic {task : Nat} (pending : Pending s.records task) (other : Nat)
    (f : PeriodicState → PeriodicState) : Pending (s.modifyPeriodic other f).records task := by
  unfold State.modifyPeriodic State.periodic?
  split
  · next isPeriodic =>
    split at isPeriodic
    · next found =>
      refine pending.set ?_ _
      rintro rfl
      obtain ⟨cell, isCell, -⟩ := pending
      rw [isCell] at found
      cases found
    · cases isPeriodic
  · exact pending

theorem keepsQueues_modifyPeriodic (s : State) (task : Nat) (f : PeriodicState → PeriodicState) :
    s.KeepsQueues (s.modifyPeriodic task f) := by
  unfold State.modifyPeriodic
  split <;> exact ⟨rfl, rfl, rfl⟩

/-- A submission adds a record, and the new task is queued next. -/
theorem Aside.submits {i : Instruction} (performed : Pool.goOn s' own' rest [i] = some effect) (queues : s.KeepsQueues s')
    {record : Record} (records : s'.records = s.records ++ [record]) (submits : Submits s.records i) :
    Aside s instruction rest effect := by
  cases performed
  refine ⟨queues.1, queues.2.1, queues.2.2, rfl, by simp, by simp, fun task pending _ => .inl ?_, [i], rest, rfl,
    List.suffix_refl _, .inr ⟨i, rfl, submits, by simp [records]⟩⟩
  rw [records]
  exact pending.append _

private theorem aside_submit {now : Instant} {channel : Channel} {id : String} {scripts : List Script}
    (performed : performSubmit s own rest now channel id scripts = some effect) : Aside s instruction rest effect := by
  cases channel with
  | detached | immediate => exact .submits performed ⟨rfl, rfl, rfl⟩ rfl (.inl ⟨_, rfl⟩)
  | dedicated | atInstant => exact .submits performed ⟨rfl, rfl, rfl⟩ rfl (.inr ⟨_, _, _, rfl, rfl⟩)
  | after | repeating =>
    simp only [performSubmit] at performed
    split at performed
    · exact .submits performed ⟨rfl, rfl, rfl⟩ rfl (.inr ⟨_, _, _, rfl, rfl⟩)
    · exact .raise performed

private theorem aside_action {action : Action} (performed : performAction s own rest world action = some effect) :
    Aside s instruction rest effect := by
  cases action with
  | log | nameThread | reportInterrupt =>
    exact .goOn performed ⟨rfl, rfl, rfl⟩ (by simp [Event.stirs]) (by simp) (fun _ pending _ => .inl pending) (by simp)
  | result => exact .quietly performed (by simp)
  | panic => exact .raise performed
  | shutdown | submit => exact .quietly performed (by simp [Instruction.steps, Instruction.task?])
  | cancel id mayInterrupt =>
    simp only [performAction] at performed
    split at performed
    · exact .quietly performed (by simp [Instruction.steps, Instruction.task?])
    · exact .goOn performed ⟨rfl, rfl, rfl⟩ (by simp [Event.stirs]) (by simp) (fun _ pending _ => .inl pending) (by simp)
  | gate =>
    simp only [performAction] at performed
    split at performed
    · exact .quietly performed (by simp)
    · cases performed

private theorem light_script {task : Nat} {script : Script} {i : Instruction} (member : i ∈ script.map .act ++ [.caught task]) :
    i.steps = false ∧ i.task? = none := by
  simp only [List.mem_append, List.mem_map, List.mem_singleton] at member
  rcases member with ⟨action, -, rfl⟩ | rfl <;> exact ⟨rfl, rfl⟩

private theorem light_run {task : Nat} {script : Script} {previous : Option Nat} {i : Instruction}
    (member : i ∈ Instruction.guarded task script previous) : i.steps = false ∧ i.task? = none := by
  simp only [Instruction.guarded, List.mem_append, List.mem_map, List.mem_cons, List.not_mem_nil, or_false] at member
  rcases member with (rfl | ⟨action, -, rfl⟩) | rfl | rfl <;> exact ⟨rfl, rfl⟩

private theorem aside_run {job : Job} (performed : performRun s own rest job = some effect) :
    Aside s (.run job) rest effect := by
  have begins : ∀ task, .began task ∈ [Event.began job.task] → (Instruction.run job).task? = some task := by
    intro task member
    cases List.mem_singleton.mp member
    rfl
  unfold performRun at performed
  split at performed
  · split at performed
    · refine .goOn performed ⟨rfl, rfl, rfl⟩ (by simp [Event.stirs]) begins (fun task pending others => .inl ?_) ?_
      · exact pending.set (fun same => others (congrArg some same)) _
      · intro i member
        rcases List.mem_append.mp member with inside | last
        · exact (light_run inside).imp_right .inl
        · cases List.mem_singleton.mp last
          exact ⟨rfl, .inr rfl⟩
    · exact .quietly performed (by simp)
  · refine .goOn performed ⟨rfl, rfl, rfl⟩ (by simp [Event.stirs]) begins (fun _ pending _ => .inl pending) ?_
    exact fun i member => (light_script member).imp_right .inl

private theorem aside_cancel {task : Nat} {mayInterrupt logged : Bool}
    (performed : performCancel s own rest task mayInterrupt logged = some effect) : Aside s instruction rest effect := by
  unfold performCancel at performed
  split at performed
  · next cell found =>
    have effective : ∀ other, Pending s.records other → other = task → (cell.cancel mayInterrupt).1 = true := by
      rintro other ⟨pending, isCell, state⟩ rfl
      rw [found] at isCell
      cases isCell
      simp [TaskCell.cancel, state]
    generalize cell.cancel mayInterrupt = cancelled at performed effective
    obtain ⟨yes, after⟩ := cancelled
    refine .goOn performed ⟨rfl, rfl, rfl⟩ ?_ ?_ (fun other pending _ => ?_) (by simp [Instruction.steps, Instruction.task?])
    · cases yes <;> cases after.interrupt && !cell.interrupt <;> simp [Event.stirs]
    · cases yes <;> cases after.interrupt && !cell.interrupt <;> simp
    · by_cases same : other = task
      · have isEffective : yes = true := effective other pending same
        exact .inr ⟨mayInterrupt, by simp [isEffective, same]⟩
      · exact .inl (pending.set (Ne.symm same) _)
  · split at performed
    · exact .quietly performed (by simp [Instruction.steps, Instruction.task?])
    · refine .goOn performed (keepsQueues_modifyPeriodic s task _) (by simp [Event.stirs]) (by simp)
        (fun _ pending _ => .inl (pending.modifyPeriodic _ _)) ?_
      cases mayInterrupt <;> simp [Instruction.steps, Instruction.task?]
  · exact .quietly performed (by simp [Instruction.steps, Instruction.task?])

/-- The marks of a repeating task change. -/
theorem Aside.marks {task : Nat} {f : PeriodicState → PeriodicState} {todo : List Instruction} {events : List Event}
    (performed : Pool.goOn (s.modifyPeriodic task f) own' rest todo events = some effect)
    (quiet : ∀ event ∈ events, event.stirs = false) (begins : ∀ task, .began task ∈ events → instruction.task? = some task)
    (goesOn : ∀ i ∈ todo, i.steps = false ∧ (i.task? = none ∨ i.task? = instruction.task?)) :
    Aside s instruction rest effect :=
  .goOn performed (keepsQueues_modifyPeriodic s task f) quiet begins (fun _ pending _ => .inl (pending.modifyPeriodic _ _)) goesOn

theorem aside_of_perform (outside : instruction.pooled = false)
    (performed : perform world me s own instruction rest = some effect) : Aside s instruction rest effect := by
  cases instruction with
  | immediate | draw | funnel | push | take | closeImmediate | closeScheduled => cases outside
  | submit => exact aside_submit performed
  | act => exact aside_action performed
  | run => exact aside_run performed
  | cancel => exact aside_cancel performed
  | abandon work =>
    cases work with
    | once => exact .quietly performed (by simp [Instruction.steps, Instruction.task?, Work.custody])
    | periodic => exact .marks performed (by simp) (by simp) (by simp)
  | drop job =>
    simp only [perform] at performed
    split at performed
    · refine .goOn performed ⟨rfl, rfl, rfl⟩ (by simp) (by simp) (fun task pending others => .inl ?_) (by simp)
      exact pending.set (fun same => others (congrArg some same)) _
    · exact .quietly performed (by simp)
  | conclude task =>
    simp only [perform] at performed
    split at performed
    · exact .quietly performed (by simp [Instruction.steps, Instruction.task?])
    · exact .quietly performed (by simp)
  | store task result =>
    simp only [perform] at performed
    split at performed
    · refine .goOn performed ⟨rfl, rfl, rfl⟩ (by simp) (by simp) (fun other pending others => .inl ?_) (by simp)
      exact pending.set (fun same => others (congrArg some same)) _
    · exact .quietly performed (by simp)
  | join =>
    simp only [perform] at performed
    split at performed
    · exact .quietly performed (by simp)
    · cases performed
  | caught =>
    exact .goOn performed ⟨rfl, rfl, rfl⟩ (by simp [Event.stirs]) (by simp) (fun _ pending _ => .inl pending) (by simp)
  | publish => exact .quietly performed (by simp)
  | exit => exact .goOn performed ⟨rfl, rfl, rfl⟩ (by simp) (by simp) (fun _ pending _ => .inl pending) (by simp)
  | fire entry =>
    simp only [perform] at performed
    split at performed
    · exact .quietly performed (by simp)
    · refine .goOn performed ⟨rfl, rfl, rfl⟩ (by simp [Event.stirs]) ?_ (fun _ pending _ => .inl pending) ?_
      · intro task member
        cases List.mem_singleton.mp member
        rfl
      · intro i member
        rcases List.mem_append.mp member with inside | last
        · exact (light_run inside).imp_right .inl
        · cases List.mem_singleton.mp last
          exact ⟨rfl, .inr rfl⟩
  | count entry =>
    simp only [perform] at performed
    split at performed
    · exact .marks performed (by simp) (by simp) (by simp)
    · exact .marks performed (by simp) (by simp) (by simp [Instruction.steps, Instruction.task?])
  | recheck entry =>
    simp only [perform] at performed
    split at performed
    · exact .quietly performed (by simp)
    · exact .quietly performed (by simp [Instruction.steps, Instruction.task?])
  | renew entry =>
    simp only [perform] at performed
    split at performed
    · refine .goOn performed ⟨rfl, rfl, rfl⟩ (by simp [Event.stirs]) (by simp) (fun _ pending _ => .inl pending) ?_
      simp [Instruction.steps, Instruction.task?, Work.custody]
    · exact .raise performed
  | markCancelled => exact .marks performed (by simp) (by simp) (by simp)
  | markInterrupt => exact .marks performed (by simp [Event.stirs]) (by simp) (by simp)
  | answer task effective logged =>
    refine .goOn performed ⟨rfl, rfl, rfl⟩ ?_ ?_ (fun _ pending _ => .inl pending) (by simp)
    · cases logged <;> simp [Event.stirs]
    · cases logged <;> simp
  | collect =>
    refine .goOn performed ⟨rfl, rfl, rfl⟩ (by simp) (by simp) (fun _ pending _ => .inl pending) fun i member => ?_
    obtain ⟨thread, -, rfl⟩ := List.mem_map.mp member
    exact ⟨rfl, .inl rfl⟩

end Perform

end PeerSubstrate.Executor.Pool
