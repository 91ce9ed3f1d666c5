import PeerSubstrate.Proofs.Concurrency.Run
import PeerSubstrate.Proofs.Executor.TaskRecords

/-!
# Tasks and their runs

What a step of the pool does, seen from one task (`Moves`): to its record, and to the runs of it that
some thread has still to end. Along every run of the pool a task is run by one thread at most, exactly
while its cell says so (`Sound`).
-/

namespace PeerSubstrate.Executor.Pool
open PeerSubstrate.Concurrency
open Instruction (lasting)

/-- How far the end of a run has come: before the look for a cancellation, or behind it with the result
that is going to be stored. -/
abbrev Stage := Option (Except TaskError Int64)

/-- The end of a run of `task`. -/
def Instruction.stage? (task : Nat) : Instruction → Option Stage
  | .conclude other => if other = task then some none else none
  | .store other result => if other = task then some (some result) else none
  | _ => none

/-- All the runs of `task` that have begun and not ended. -/
def stages (task : Nat) (todo : List Instruction) : List Stage := todo.filterMap (Instruction.stage? task)

/-- Only lasting instructions end runs. -/
theorem stages_filter (task : Nat) (todo : List Instruction) : stages task (todo.filter lasting) = stages task todo := by
  induction todo with
  | nil => rfl
  | cons instruction rest ih =>
    unfold stages at ih ⊢
    rw [List.filter_cons]
    split
    · rw [List.filterMap_cons, List.filterMap_cons, ih]
    · rw [ih, List.filterMap_cons]
      cases instruction <;> simp_all [Instruction.stage?, lasting]

/-- A pending task is not marked and a running one runs once; nothing else is in flight, and no result has
been handed out. -/
def Accounted : Option Record → List Stage → Prop
  | some (.oneOff cell), flight => match cell.state with
    | .pending => flight = [] ∧ cell.cancelled = false
    | .running => ∃ stage, flight = [stage]
    | .finished _ => flight = []
    | .taken => False
  | _, flight => flight = []

/-- What a step does to one task: to its record and to the runs that its thread has to end, and whether a
cancellation took effect. -/
inductive Moves : Option Record → List Stage → Option Record → List Stage → Bool → Prop
  | same {record flight} : Moves record flight record flight false
  | added {flight record} : record = .detached ∨ record = .oneOff {} ∨ record = .periodic {} →
      Moves none flight (some record) flight false
  | began {cell cell' flight} : cell.begin? = some cell' →
      Moves (some (.oneOff cell)) flight (some (.oneOff cell')) (none :: flight) false
  | concluded {cell flight} (outcome : Except String Int64) : Moves (some (.oneOff cell)) (none :: flight)
      (some (.oneOff cell)) (some (cell.verdict outcome) :: flight) false
  | stored {cell result flight} : Moves (some (.oneOff cell)) (some result :: flight)
      (some (.oneOff (cell.finish result))) flight false
  | void {record stage flight} : (∀ cell, record ≠ some (.oneOff cell)) →
      Moves record (stage :: flight) record flight false
  | abandoned {cell flight} : Moves (some (.oneOff cell)) flight (some (.oneOff cell.abandon)) flight false
  | cancelled {cell flight} (mayInterrupt : Bool) : Moves (some (.oneOff cell)) flight
      (some (.oneOff (cell.cancel mayInterrupt).2)) flight (cell.cancel mayInterrupt).1
  | marked {state flight} (state' : PeriodicState) (effective : Bool) :
      Moves (some (.periodic state)) flight (some (.periodic state')) flight effective

section Moves

variable {record record' : Option Record} {flight flight' before after : List Stage} {effective : Bool}

/-- A run that has to end belongs to a task that is running, and is the only one of it. -/
theorem Accounted.running {stage : Stage} (accounted : Accounted record (before ++ (stage :: flight ++ after))) :
    ∃ cell, record = some (.oneOff cell) ∧ cell.state = .running ∧ before = [] ∧ flight = [] ∧ after = [] := by
  have some : before ++ (stage :: flight ++ after) ≠ [] := by simp
  unfold Accounted at accounted
  split at accounted
  · next cell =>
    split at accounted
    · exact absurd accounted.1 some
    · next running =>
      obtain ⟨other, one⟩ := accounted
      cases before with
      | nil =>
        obtain ⟨rfl, rfl⟩ := List.append_eq_nil_iff.mp (List.cons.inj one).2
        exact ⟨cell, rfl, running, rfl, rfl, rfl⟩
      | cons first before => simp at one
    · exact absurd accounted some
    · exact accounted.elim
  · exact absurd accounted some

private theorem Moves.accounted (moves : Moves record flight record' flight' effective)
    (accounted : Accounted record (before ++ (flight ++ after))) : Accounted record' (before ++ (flight' ++ after)) := by
  cases moves with
  | same => exact accounted
  | added fresh =>
    rcases fresh with rfl | rfl | rfl
    · exact accounted
    · exact ⟨accounted, rfl⟩
    · exact accounted
  | @began cell cell' flight began =>
    obtain ⟨state, mark, interrupt⟩ := cell
    cases state with
    | pending =>
      cases began
      obtain ⟨rfl, rest⟩ := List.append_eq_nil_iff.mp accounted.1
      obtain ⟨rfl, rfl⟩ := List.append_eq_nil_iff.mp rest
      exact ⟨none, rfl⟩
    | running | finished | taken => cases began
  | @concluded cell flight outcome =>
    obtain ⟨_, same, running, rfl, rfl, rfl⟩ := accounted.running
    cases same
    simp only [Accounted, running]
    exact ⟨_, rfl⟩
  | stored =>
    obtain ⟨_, _, _, rfl, rfl, rfl⟩ := accounted.running
    rfl
  | void none =>
    obtain ⟨cell, isCell, _⟩ := accounted.running
    exact absurd isCell (none cell)
  | @abandoned cell =>
    obtain ⟨state, mark, interrupt⟩ := cell
    cases state with
    | pending => exact accounted.1
    | running | finished | taken => exact accounted
  | @cancelled cell _ mayInterrupt =>
    obtain ⟨state, mark, interrupt⟩ := cell
    cases state with
    | pending => exact accounted.1
    | running | finished | taken => exact accounted
  | marked => exact accounted

/-- A task keeps its kind. -/
theorem Moves.periodic (moves : Moves record flight record' flight' effective)
    (periodic : ∃ state, record = some (.periodic state)) : ∃ state, record' = some (.periodic state) := by
  cases moves with
  | same => exact periodic
  | void => exact periodic
  | marked state' => exact ⟨state', rfl⟩
  | _ => simp at periodic

theorem Moves.oneOff (moves : Moves record flight record' flight' effective)
    (oneOff : ∃ cell, record = some (.oneOff cell)) : ∃ cell, record' = some (.oneOff cell) := by
  cases moves with
  | same => exact oneOff
  | void => exact oneOff
  | marked => simp at oneOff
  | added => simp at oneOff
  | _ => exact ⟨_, rfl⟩

/-- Only a task that has a handle is cancelled. -/
theorem Moves.kind (moves : Moves record flight record' flight' true) :
    (∃ cell, record' = some (.oneOff cell)) ∨ ∃ state, record' = some (.periodic state) := by
  generalize isTrue : true = effective at moves
  cases moves with
  | cancelled => exact .inl ⟨_, rfl⟩
  | marked => exact .inr ⟨_, rfl⟩
  | _ => cases isTrue

end Moves

section Stages

variable {task other : Nat} {result : Except TaskError Int64} {effective logged : Bool} {todo : List Instruction}

private theorem stages_conclude : stages task (.conclude task :: todo) = none :: stages task todo := by
  simp [stages, Instruction.stage?]

private theorem stages_store : stages task (.store task result :: todo) = some result :: stages task todo := by
  simp [stages, Instruction.stage?]

private theorem stages_answer : stages task (.answer other effective logged :: todo) = stages task todo := rfl

private theorem stages_conclude_of_ne (others : other ≠ task) : stages task (.conclude other :: todo) = stages task todo := by
  simp [stages, Instruction.stage?, others]

private theorem stages_store_of_ne (others : other ≠ task) : stages task (.store other result :: todo) = stages task todo := by
  simp [stages, Instruction.stage?, others]

end Stages

/-- A step that replaces one record leaves all other tasks alone. -/
theorem Moves.set {task other : Nat} {records : List Record} {old new : Record} {flight flight' : List Stage}
    {effective : Bool} (found : records[other]? = some old)
    (here : other = task → Moves (some old) flight (some new) flight' effective)
    (elsewhere : other ≠ task → flight' = flight ∧ effective = false) :
    Moves records[task]? flight (records.set other new)[task]? flight' effective := by
  by_cases mine : other = task
  · subst mine
    rw [found, List.getElem?_set_self (List.getElem?_eq_some_iff.mp found).1]
    exact here rfl
  · obtain ⟨rfl, rfl⟩ := elsewhere mine
    rw [List.getElem?_set_ne mine]
    exact .same

/-- What a step does to one task, and when it is a cancellation of that task. -/
theorem Touches.moves {records records' : List Record} {todo todo' : List Instruction} {events : List Event}
    (touches : Touches records todo records' todo' events) (task : Nat) :
    ∃ effective, Moves records[task]? (stages task todo) records'[task]? (stages task todo') effective ∧
      ((∃ mayInterrupt, .cancelled task mayInterrupt ∈ events) ↔ effective = true) := by
  cases touches with
  | idle => exact ⟨false, .same, by simp⟩
  | refuse =>
    refine ⟨false, ?_, by simp⟩
    rw [stages_answer]
    exact .same
  | answer =>
    refine ⟨false, ?_, by simp⟩
    rw [stages_answer]
    exact .same
  | add fresh =>
    refine ⟨false, ?_, by simp⟩
    rcases Nat.lt_trichotomy task records.length with old | rfl | later
    · rw [List.getElem?_append_left old]
      exact .same
    · rw [List.getElem?_concat_length, List.getElem?_eq_none (Nat.le_refl _)]
      exact .added fresh
    · rw [List.getElem?_eq_none (by omega), List.getElem?_eq_none (by simp; omega)]
      exact .same
  | @begin _ other cell cell' found began =>
    refine ⟨false, .set found (fun mine => ?_) (fun others => ⟨stages_conclude_of_ne others, rfl⟩), by simp⟩
    rw [mine, stages_conclude]
    exact .began began
  | @conclude todo other cell outcome found =>
    refine ⟨false, ?_, by simp⟩
    by_cases mine : other = task
    · rw [← mine, found, stages_conclude, stages_store]
      exact .concluded outcome
    · rw [stages_conclude_of_ne mine, stages_store_of_ne mine]
      exact .same
  | @store _ other cell result found =>
    refine ⟨false, .set found (fun mine => ?_) (fun others => ⟨(stages_store_of_ne others).symm, rfl⟩), by simp⟩
    rw [mine, stages_store]
    exact .stored
  | @void _ other instruction none kind =>
    refine ⟨false, ?_, by simp⟩
    by_cases mine : other = task
    · subst mine
      rcases kind with rfl | ⟨result, rfl⟩
      · rw [stages_conclude]
        exact .void none
      · rw [stages_store]
        exact .void none
    · rcases kind with rfl | ⟨result, rfl⟩
      · rw [stages_conclude_of_ne mine]
        exact .same
      · rw [stages_store_of_ne mine]
        exact .same
  | abandon found => exact ⟨false, .set found (fun _ => .abandoned) (fun _ => ⟨rfl, rfl⟩), by simp⟩
  | mark state' found => exact ⟨false, .set found (fun _ => .marked state' false) (fun _ => ⟨rfl, rfl⟩), by simp⟩
  | @cancel _ other cell logged mayInterrupt found =>
    by_cases mine : other = task
    · refine ⟨(cell.cancel mayInterrupt).1, .set found (fun _ => ?_) (absurd mine), by simp [mine]⟩
      rw [stages_answer]
      exact .cancelled mayInterrupt
    · exact ⟨false, .set found (fun same => absurd same mine) (fun _ => ⟨stages_answer, rfl⟩), by simp [Ne.symm mine]⟩
  | @stop _ other state logged state' mayInterrupt found =>
    by_cases mine : other = task
    · refine ⟨true, .set found (fun _ => ?_) (absurd mine), by simp [mine]⟩
      rw [stages_answer]
      exact .marked state' true
    · exact ⟨false, .set found (fun same => absurd same mine) (fun _ => ⟨stages_answer, rfl⟩), by simp [Ne.symm mine]⟩

/-! ## Every step, every run -/

/-- What holds in every system that clients of a pool can lead to. -/
structure Sound (s : System State Own Instruction) : Prop where
  guarded : ∀ thread ∈ s.threads, Guarded thread.todo
  accounted : ∀ task, Accounted s.shared.records[task]? (stages task s.todo)

private theorem stages_append (task : Nat) (one two : List Instruction) :
    stages task (one ++ two) = stages task one ++ stages task two := List.filterMap_append

section Step

variable {world : World} {i : Nat} {s u : System State Own Instruction} {events : List Event}

/-- What a step does to the records, in the midst of all threads. -/
theorem Sound.touches (sound : Sound s) (stepped : machine.step world i s = some (u, events)) :
    ∃ before todo todo' after, s.todo.filter lasting = before ++ (todo ++ after) ∧
      u.todo.filter lasting = before ++ (todo' ++ after) ∧
      Touches s.shared.records todo u.shared.records todo' (events.filter Event.ofCancellation) := by
  obtain ⟨before, own, instruction, rest, after, effect, threads, -, performed, rfl, rfl⟩ :=
    Machine.step_eq_some_iff.mp stepped
  have guarded : Guarded (instruction :: rest) := sound.guarded ⟨own, instruction :: rest⟩ (by simp [threads])
  obtain ⟨-, forgettable⟩ := guarded.perform performed
  have starts : (effect.started.flatMap Thread.todo).filter lasting = [] := by
    rw [List.filter_eq_nil_iff]
    intro i member
    obtain ⟨thread, isThread, here⟩ := List.mem_flatMap.mp member
    exact List.filter_eq_nil_iff.mp (forgettable thread isThread) i here
  refine ⟨(before.flatMap Thread.todo).filter lasting, _, _, (after.flatMap Thread.todo).filter lasting, ?_, ?_,
    guarded.touching performed⟩
  · simp only [System.todo, threads, List.flatMap_append, List.flatMap_cons, List.filter_append]
  · simp only [System.todo, List.flatMap_append, List.flatMap_cons, List.filter_append, starts, List.append_nil]

/-- What a step does to one task, in the midst of all threads. -/
theorem Sound.moves (sound : Sound s) (stepped : machine.step world i s = some (u, events)) (task : Nat) :
    ∃ before flight flight' after effective, stages task s.todo = before ++ (flight ++ after) ∧
      stages task u.todo = before ++ (flight' ++ after) ∧
      Moves s.shared.records[task]? flight u.shared.records[task]? flight' effective ∧
      ((∃ mayInterrupt, .cancelled task mayInterrupt ∈ events) ↔ effective = true) := by
  obtain ⟨before, todo, todo', after, todoBefore, todoAfter, touches⟩ := sound.touches stepped
  obtain ⟨effective, moves, effects⟩ := touches.moves task
  refine ⟨stages task before, _, _, stages task after, effective, ?_, ?_, moves, ?_⟩
  · rw [← stages_filter, todoBefore, stages_append, stages_append]
  · rw [← stages_filter, todoAfter, stages_append, stages_append]
  · rw [← effects]
    simp [Event.ofCancellation]

theorem Sound.step (sound : Sound s) (stepped : machine.step world i s = some (u, events)) : Sound u := by
  constructor
  case guarded =>
    obtain ⟨before, own, instruction, rest, after, effect, threads, -, performed, rfl, rfl⟩ :=
      Machine.step_eq_some_iff.mp stepped
    have guarded : Guarded (instruction :: rest) := sound.guarded ⟨own, instruction :: rest⟩ (by simp [threads])
    obtain ⟨here, starts⟩ := guarded.perform performed
    intro thread member
    simp only [List.mem_append, List.mem_cons] at member
    rcases member with member | rfl | member | member
    · exact sound.guarded thread (by simp [threads, member])
    · exact here
    · exact sound.guarded thread (by simp [threads, member])
    · exact guarded_of_forgettable (starts thread member)
  case accounted =>
    intro task
    obtain ⟨before, flight, flight', after, effective, flightBefore, flightAfter, moves, -⟩ := sound.moves stepped task
    have accounted := sound.accounted task
    rw [flightBefore] at accounted
    rw [flightAfter]
    exact moves.accounted accounted

end Step

section Run

variable {config : Config} {calls : List (List Call)} {origin s t u : System State Own Instruction}
  {seen later : List Event} {task : Nat}

private theorem forgettable_withClients (config : Config) (calls : List (List Call)) :
    ∀ thread ∈ (withClients config calls).threads, thread.todo.filter lasting = [] := by
  have forgettable : ∀ call : Call, call.todo.filter lasting = [] := by
    intro call
    cases call <;> rfl
  intro thread member
  simp only [withClients, initial, List.mem_append, List.mem_cons, List.mem_map] at member
  rcases member with (rfl | ⟨number, -, rfl⟩) | ⟨calls, -, rfl⟩
  · rfl
  · rfl
  · rw [List.filter_eq_nil_iff]
    intro i member
    obtain ⟨call, -, here⟩ := List.mem_flatMap.mp member
    exact List.filter_eq_nil_iff.mp (forgettable call) i here

theorem forgettable_todo (config : Config) (calls : List (List Call)) :
    (withClients config calls).todo.filter lasting = [] := by
  rw [List.filter_eq_nil_iff]
  intro i member
  obtain ⟨thread, isThread, here⟩ := List.mem_flatMap.mp member
  exact List.filter_eq_nil_iff.mp (forgettable_withClients config calls thread isThread) i here

theorem Sound.start (config : Config) (calls : List (List Call)) : Sound (withClients config calls) := by
  constructor
  case guarded => exact fun thread member => guarded_of_forgettable (forgettable_withClients config calls thread member)
  case accounted =>
    intro task
    rw [← stages_filter, forgettable_todo]
    rfl

theorem Sound.run (sound : Sound u) (run : machine.Run u s later) : Sound s := by
  induction run with
  | start => exact sound
  | step world i _ stepped ih => exact ih.step stepped

theorem Sound.periodic_run (sound : Sound u) (run : machine.Run u s later)
    (periodic : ∃ state, u.shared.records[task]? = some (.periodic state)) :
    ∃ state, s.shared.records[task]? = some (.periodic state) := by
  induction run with
  | start => exact periodic
  | step world i run stepped ih =>
    obtain ⟨_, _, _, _, _, _, _, moves, _⟩ := (sound.run run).moves stepped task
    exact moves.periodic ih

end Run

end PeerSubstrate.Executor.Pool
