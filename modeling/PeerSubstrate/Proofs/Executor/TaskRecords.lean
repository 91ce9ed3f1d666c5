import PeerSubstrate.Proofs.Executor.PoolThreads

/-!
# What becomes of the records of tasks

A step of the pool changes at most one record, in one of few ways (`Touches`); everything else it does
leaves the records and the lasting instructions of its thread alone.
-/

namespace PeerSubstrate.Executor.Pool
open PeerSubstrate.Time PeerSubstrate.Concurrency
open Instruction (lasting raises unwind)

/-- A cancellation takes effect, or returns. -/
def Event.ofCancellation : Event → Bool
  | .cancelled _ _ | .cancelReturned _ _ => true
  | _ => false

/-- What a step does to the records and to the lasting instructions of its thread, and which events of cancellations are
seen. A pending task begins to run; its thread looks for a cancellation after the script has ended, and stores the
result, unless there is no cell for it. A cancellation finds a one-off task, or a repeating one, which is stopped, or
nothing, and then it returns. -/
inductive Touches : List Record → List Instruction → List Record → List Instruction → List Event → Prop
  | idle {records todo} : Touches records todo records todo []
  | add {records todo record} : record = .detached ∨ record = .oneOff {} ∨ record = .periodic {} →
      Touches records todo (records ++ [record]) todo []
  | begin {records todo task cell cell'} : records[task]? = some (.oneOff cell) → cell.begin? = some cell' →
      Touches records todo (records.set task (.oneOff cell')) (.conclude task :: todo) []
  | conclude {records todo task cell} (outcome : Except String Int64) : records[task]? = some (.oneOff cell) →
      Touches records (.conclude task :: todo) records (.store task (cell.verdict outcome) :: todo) []
  | store {records todo task cell result} : records[task]? = some (.oneOff cell) →
      Touches records (.store task result :: todo) (records.set task (.oneOff (cell.finish result))) todo []
  | void {records todo task instruction} : (∀ cell, records[task]? ≠ some (.oneOff cell)) →
      instruction = .conclude task ∨ (∃ result, instruction = .store task result) →
      Touches records (instruction :: todo) records todo []
  | abandon {records todo task cell} : records[task]? = some (.oneOff cell) →
      Touches records todo (records.set task (.oneOff cell.abandon)) todo []
  | mark {records todo task state} (state' : PeriodicState) : records[task]? = some (.periodic state) →
      Touches records todo (records.set task (.periodic state')) todo []
  | cancel {records todo task cell logged} (mayInterrupt : Bool) : records[task]? = some (.oneOff cell) →
      Touches records todo (records.set task (.oneOff (cell.cancel mayInterrupt).2))
        (.answer task (cell.cancel mayInterrupt).1 logged :: todo)
        (if (cell.cancel mayInterrupt).1 then [.cancelled task mayInterrupt] else [])
  | stop {records todo task state logged} (state' : PeriodicState) (mayInterrupt : Bool) :
      records[task]? = some (.periodic state) →
      Touches records todo (records.set task (.periodic state')) (.answer task true logged :: todo)
        [.cancelled task mayInterrupt]
  | refuse {records todo logged} (task : Nat) : Touches records todo records (.answer task false logged :: todo) []
  | answer {records todo task effective logged} : Touches records (.answer task effective logged :: todo) records todo
      [.cancelReturned task effective]

section Perform

variable {world : World} {me : Nat} {s s' : State} {own : Own} {instruction : Instruction} {rest : List Instruction}
  {effect : Effect State Own Instruction Event} {records : List Record} {before : List Instruction}

/-- The step with this effect touches the records as `Touches` says. -/
def Touching (records : List Record) (before : List Instruction) (effect : Effect State Own Instruction Event) : Prop :=
  Touches records before effect.shared.records (effect.thread.todo.filter lasting)
    (effect.events.filter Event.ofCancellation)

private theorem Touching.goOn {todo : List Instruction} {events : List Event}
    (performed : Pool.goOn s' own rest todo events = some effect)
    (touches : Touches records before s'.records (todo.filter lasting ++ rest.filter lasting)
      (events.filter Event.ofCancellation)) : Touching records before effect := by
  cases performed
  rw [Touching, List.filter_append]
  exact touches

private theorem Touching.quietly {todo : List Instruction} {events : List Event}
    (performed : Pool.goOn s' own rest todo events = some effect) (same : s'.records = records)
    (forgettable : ∀ i ∈ todo, i.lasting = false) (quiet : events.filter Event.ofCancellation = []) :
    Touching records (rest.filter lasting) effect := by
  have none : todo.filter lasting = [] := List.filter_eq_nil_iff.mpr fun i member => by simp [forgettable i member]
  refine .goOn performed ?_
  rw [same, none, quiet]
  exact .idle

private theorem Touching.raise {message : String} (performed : Pool.raise s own rest message = some effect)
    (shield : (unwind rest).filter lasting = rest.filter lasting) :
    Touching s.records (rest.filter lasting) effect := by
  cases performed
  rw [Touching, shield]
  exact .idle

private theorem Touching.submit {now : Instant} {channel : Channel} {id : String} {scripts : List Script}
    (shield : (unwind rest).filter lasting = rest.filter lasting)
    (performed : performSubmit s own rest now channel id scripts = some effect) :
    Touching s.records (rest.filter lasting) effect := by
  cases channel with
  | detached => exact .goOn performed (.add (.inl rfl))
  | immediate | dedicated | atInstant => exact .goOn performed (.add (.inr (.inl rfl)))
  | after =>
    simp only [performSubmit] at performed
    split at performed
    · exact .goOn performed (.add (.inr (.inl rfl)))
    · exact .raise performed shield
  | repeating =>
    simp only [performSubmit] at performed
    split at performed
    · exact .goOn performed (.add (.inr (.inr rfl)))
    · exact .raise performed shield

private theorem Touching.action {action : Action} (shield : (unwind rest).filter lasting = rest.filter lasting)
    (performed : performAction s own rest world action = some effect) :
    Touching s.records (rest.filter lasting) effect := by
  cases action with
  | log | nameThread | reportInterrupt | result | shutdown | submit => exact .goOn performed .idle
  | panic => exact .raise performed shield
  | cancel id mayInterrupt =>
    simp only [performAction] at performed
    split at performed <;> exact .goOn performed .idle
  | gate =>
    simp only [performAction] at performed
    split at performed
    · exact .goOn performed .idle
    · simp at performed

private theorem forgettable_acts (script : Script) : (script.map Instruction.act).filter lasting = [] := by
  rw [List.filter_eq_nil_iff]
  intro i member
  obtain ⟨action, -, rfl⟩ := List.mem_map.mp member
  simp [lasting]

private theorem forgettable_guarded (task : Nat) (script : Script) (previous : Option Nat) :
    (Instruction.guarded task script previous).filter lasting = [] := by
  rw [Instruction.guarded, List.filter_append, List.filter_append, forgettable_acts]
  rfl

theorem Touching.run {job : Job} (performed : performRun s own rest job = some effect) :
    Touching s.records (rest.filter lasting) effect := by
  unfold performRun at performed
  split at performed
  · next found =>
    split at performed
    · next began =>
      refine .goOn performed ?_
      rw [List.filter_append, forgettable_guarded]
      exact .begin found began
    · exact .goOn performed .idle
  · refine .goOn performed ?_
    rw [List.filter_append, forgettable_acts]
    exact .idle

private theorem Touching.modifyPeriodic {todo : List Instruction} {events : List Event} {task : Nat}
    {f : PeriodicState → PeriodicState}
    (performed : Pool.goOn (s.modifyPeriodic task f) own rest todo events = some effect)
    (forgettable : todo.filter lasting = []) (quiet : events.filter Event.ofCancellation = []) :
    Touching s.records (rest.filter lasting) effect := by
  refine .goOn performed ?_
  rw [forgettable, quiet, List.nil_append, State.modifyPeriodic, State.periodic?]
  split
  · next found =>
    split at found
    · next isPeriodic => exact .mark _ isPeriodic
    · simp at found
  · exact .idle

private theorem Touching.cancel {task : Nat} {mayInterrupt logged : Bool}
    (performed : performCancel s own rest task mayInterrupt logged = some effect) :
    Touching s.records (rest.filter lasting) effect := by
  unfold performCancel at performed
  split at performed
  · next cell found =>
    have cancelled : ∀ effective interrupts, (((if effective = true then [Event.cancelled task mayInterrupt] else []) ++
        if interrupts = true then [Event.interrupted task] else []).filter Event.ofCancellation) =
        if effective = true then [.cancelled task mayInterrupt] else [] := by
      intro effective interrupts
      cases effective <;> cases interrupts <;> rfl
    refine .goOn performed ?_
    rw [cancelled]
    exact .cancel mayInterrupt found
  · next state found =>
    split at performed
    · exact .goOn performed (.refuse task)
    · refine .goOn performed ?_
      rw [State.modifyPeriodic, State.periodic?, found]
      cases mayInterrupt <;> exact .stop _ _ found
  · exact .goOn performed (.refuse task)

private theorem Touching.take {now : Instant} (performed : performTake s own rest now = some effect) :
    Touching s.records (rest.filter lasting) effect := by
  unfold performTake at performed
  split at performed
  · exact .goOn performed .idle
  · simp at performed
  · split at performed <;> exact .goOn performed .idle

private theorem Touching.immediate {step : Immediate.Step Job}
    (performed : perform world me s own (.immediate step) rest = some effect) :
    Touching s.records (rest.filter lasting) effect := by
  obtain ⟨⟨immediate, next⟩, -, same⟩ := Option.map_eq_some_iff.mp performed
  have records : effect.shared.records = s.records := by rw [← same]
  have forgotten : effect.thread.todo.filter lasting = rest.filter lasting := by
    have none : (next.flatMap Instruction.ofImmediate).filter lasting = [] := by
      rw [List.filter_eq_nil_iff]
      intro i member
      obtain ⟨one, -, member⟩ := List.mem_flatMap.mp member
      cases one <;> simp [Instruction.ofImmediate] at member <;> subst member <;> simp [lasting]
    rw [← same, List.filter_append, none, List.nil_append]
  have quiet : effect.events.filter Event.ofCancellation = [] := by
    rw [← same, List.filter_eq_nil_iff]
    intro event member
    obtain ⟨one, -, seen⟩ := List.mem_filterMap.mp member
    split at seen
    · split at seen <;> cases seen
      simp [Event.ofCancellation]
    · cases seen
      simp [Event.ofCancellation]
    · cases seen
      simp [Event.ofCancellation]
    · cases seen
  rw [Touching, records, forgotten, quiet]
  exact .idle

theorem cell?_eq_some_iff {task : Nat} {cell : TaskCell Int64} :
    s.cell? task = some cell ↔ s.records[task]? = some (.oneOff cell) := by
  unfold State.cell?
  split
  · next found => simp [found]
  · next other =>
    simp only [reduceCtorEq, false_iff]
    exact other cell

theorem cell?_eq_none_iff {task : Nat} : s.cell? task = none ↔ ∀ cell, s.records[task]? ≠ some (.oneOff cell) := by
  rw [Option.eq_none_iff_forall_ne_some]
  exact forall_congr' fun cell => not_congr cell?_eq_some_iff

private theorem Touching.of_forgettable (forgettable : instruction.lasting = false)
    (shield : instruction.raises = true → (unwind rest).filter lasting = rest.filter lasting)
    (performed : perform world me s own instruction rest = some effect) :
    Touching s.records (rest.filter lasting) effect := by
  cases instruction with
  | conclude | store | answer => simp [lasting] at forgettable
  | submit => exact .submit (shield rfl) performed
  | draw deadline work funnelled => cases funnelled <;> exact .goOn performed .idle
  | funnel step =>
    refine .quietly performed rfl (fun i member => ?_) rfl
    obtain ⟨next, -, rfl⟩ := List.mem_map.mp member
    cases next <;> rfl
  | push entry =>
    simp only [perform] at performed
    split at performed <;> exact .goOn performed .idle
  | abandon work =>
    cases work with
    | once job => exact .goOn performed .idle
    | periodic periodic => exact .modifyPeriodic performed rfl rfl
  | drop job =>
    simp only [perform] at performed
    split at performed
    · next found => exact .goOn performed (.abandon (cell?_eq_some_iff.mp found))
    · exact .goOn performed .idle
  | immediate step => exact .immediate performed
  | run job => exact .run performed
  | act action => exact .action (shield rfl) performed
  | caught | publish | closeImmediate | exit => exact .goOn performed .idle
  | markCancelled task => exact .modifyPeriodic performed rfl rfl
  | markInterrupt task => exact .modifyPeriodic performed rfl rfl
  | take => exact .take performed
  | fire entry =>
    simp only [perform] at performed
    split at performed
    · exact .goOn performed .idle
    · refine .goOn performed ?_
      rw [List.filter_append, forgettable_guarded]
      exact .idle
  | count entry =>
    simp only [perform] at performed
    split at performed
    · exact .modifyPeriodic performed rfl rfl
    · exact .modifyPeriodic performed rfl rfl
  | recheck entry =>
    simp only [perform] at performed
    split at performed <;> exact .goOn performed .idle
  | renew entry =>
    simp only [perform] at performed
    split at performed
    · exact .goOn performed .idle
    · exact .raise performed (shield rfl)
  | cancel task mayInterrupt logged => exact .cancel performed
  | closeScheduled =>
    refine .quietly performed rfl (fun i member => ?_) rfl
    simp only [List.mem_append, List.mem_map, List.mem_singleton] at member
    rcases member with ⟨entry, -, rfl⟩ | rfl <;> rfl
  | collect =>
    refine .quietly performed rfl (fun i member => ?_) rfl
    obtain ⟨thread, -, rfl⟩ := List.mem_map.mp member
    rfl
  | join thread =>
    simp only [perform] at performed
    split at performed
    · exact .goOn performed .idle
    · simp at performed

/-- What a guarded thread does to the records. -/
theorem Guarded.touching (guarded : Guarded (instruction :: rest))
    (performed : Pool.perform world me s own instruction rest = some effect) :
    Touching s.records ((instruction :: rest).filter lasting) effect := by
  by_cases forgettable : instruction.lasting = false
  · rw [List.filter_cons_of_neg (by simp [forgettable])]
    exact .of_forgettable forgettable guarded.1 performed
  cases instruction with
  | answer task effective logged => cases logged <;> exact .goOn performed .answer
  | conclude task =>
    simp only [Pool.perform] at performed
    split at performed
    · next found => exact .goOn performed (.conclude _ (cell?_eq_some_iff.mp found))
    · next none => exact .goOn performed (.void (cell?_eq_none_iff.mp none) (.inl rfl))
  | store task result =>
    simp only [Pool.perform] at performed
    split at performed
    · next found => exact .goOn performed (.store (cell?_eq_some_iff.mp found))
    · next none => exact .goOn performed (.void (cell?_eq_none_iff.mp none) (.inr ⟨result, rfl⟩))
  | _ => exact absurd rfl forgettable

end Perform

end PeerSubstrate.Executor.Pool
