import PeerSubstrate.Proofs.Executor.TaskRuns

/-!
# Cancelled tasks

A cancellation that finds a task running returns true and leaves a mark. The thread that runs the task
looks for the mark once, and stores the result afterwards: a cancellation in between has its answer
and no effect. Exactly the cancellations before that look discard the result (`join_cancelled_iff`).
-/

namespace PeerSubstrate.Executor

private theorem TaskCell.verdict_eq_cancelled_iff {α : Type} {cell : TaskCell α} {outcome : Except String α} :
    cell.verdict outcome = .error .cancelled ↔ cell.cancelled = true := by
  unfold verdict
  split
  · next cancelled => simp [cancelled]
  · next other => cases outcome <;> simp [other]

namespace Pool
open PeerSubstrate.Concurrency
open Instruction (lasting)

/-- The result of the task is discarded, or is going to be. -/
def Doomed : Option Record → List Stage → Prop
  | some (.oneOff cell), flight => match cell.state with
    | .finished result => result = .error .cancelled
    | .running => flight = [none] ∧ cell.cancelled = true ∨ flight = [some (.error .cancelled)]
    | _ => False
  | _, _ => False

/-- A step discards the result of a one-off task if it is a cancellation in time: before the look for it. -/
theorem Moves.doomed_iff {record record' : Option Record} {flight flight' before after : List Stage} {effective : Bool}
    (moves : Moves record flight record' flight' effective)
    (accounted : Accounted record (before ++ (flight ++ after))) {cell' : TaskCell Int64}
    (isCell : record' = some (.oneOff cell')) : Doomed record' (before ++ (flight' ++ after)) ↔
      Doomed record (before ++ (flight ++ after)) ∨
        effective = true ∧ ∀ result, some result ∉ before ++ (flight ++ after) := by
  cases moves with
  | same => simp
  | added fresh =>
    rcases fresh with rfl | rfl | rfl
    · cases isCell
    · simp [Doomed]
    · cases isCell
  | @began cell cell' flight began =>
    obtain ⟨state, mark, interrupt⟩ := cell
    cases state with
    | pending =>
      cases began
      obtain ⟨empty, unmarked⟩ := accounted
      simp only at unmarked
      obtain ⟨rfl, rest⟩ := List.append_eq_nil_iff.mp empty
      obtain ⟨rfl, rfl⟩ := List.append_eq_nil_iff.mp rest
      simp [Doomed, unmarked]
    | running | finished | taken => cases began
  | @concluded cell flight outcome =>
    obtain ⟨_, same, running, rfl, rfl, rfl⟩ := accounted.running
    cases same
    simp [Doomed, running, TaskCell.verdict_eq_cancelled_iff]
  | stored =>
    obtain ⟨_, same, running, rfl, rfl, rfl⟩ := accounted.running
    cases same
    simp [Doomed, running, TaskCell.finish]
  | void none => exact absurd isCell (none cell')
  | @abandoned cell =>
    obtain ⟨state, mark, interrupt⟩ := cell
    cases state <;> simp [Doomed, TaskCell.abandon, TaskCell.finish]
  | @cancelled cell _ mayInterrupt =>
    obtain ⟨state, mark, interrupt⟩ := cell
    cases state with
    | pending =>
      obtain ⟨empty, -⟩ := accounted
      simp [Doomed, TaskCell.cancel, empty]
    | running =>
      obtain ⟨stage, one⟩ := accounted
      rw [one]
      cases stage with
      | none => simp [Doomed, TaskCell.cancel]
      | some result => simp [Doomed, TaskCell.cancel]
    | finished | taken => simp [Doomed, TaskCell.cancel]
  | marked => cases isCell

section Run

variable {config : Config} {calls : List (List Call)} {world : World} {i : Nat}
  {origin s t u : System State Own Instruction} {seen later events : List Event} {task : Nat}

/-- A step dooms a one-off task if it is a cancellation of it and no result is about to be stored. -/
theorem Sound.doomed_iff (sound : Sound s) (stepped : machine.step world i s = some (u, events))
    {cell : TaskCell Int64} (isCell : u.shared.records[task]? = some (.oneOff cell)) :
    Doomed u.shared.records[task]? (stages task u.todo) ↔ Doomed s.shared.records[task]? (stages task s.todo) ∨
      (∃ mayInterrupt, .cancelled task mayInterrupt ∈ events) ∧ ∀ result, some result ∉ stages task s.todo := by
  obtain ⟨before, flight, flight', after, effective, flightBefore, flightAfter, moves, effects⟩ := sound.moves stepped task
  have accounted := sound.accounted task
  rw [flightBefore] at accounted
  rw [flightBefore, flightAfter, effects]
  exact moves.doomed_iff accounted isCell

private theorem Doomed.oneOff {record : Option Record} {flight : List Stage} (doomed : Doomed record flight) :
    ∃ cell, record = some (.oneOff cell) := by
  unfold Doomed at doomed
  split at doomed
  · exact ⟨_, rfl⟩
  · exact doomed.elim

private theorem Sound.doomed_run (sound : Sound u) (run : machine.Run u s later)
    (doomed : Doomed u.shared.records[task]? (stages task u.todo)) :
    Doomed s.shared.records[task]? (stages task s.todo) := by
  induction run with
  | start => exact doomed
  | step world i run stepped ih =>
    have before := sound.run run
    obtain ⟨_, _, _, _, _, _, _, moves, _⟩ := before.moves stepped task
    obtain ⟨cell, isCell⟩ := moves.oneOff ih.oneOff
    exact (before.doomed_iff stepped isCell).mpr (.inl ih)

/-- On the way from `origin` to `s` a cancellation of the task takes effect while no result of the task is
about to be stored: the task is pending, or its thread has not looked for a cancellation yet. -/
def CancelledInTime (origin s : System State Own Instruction) (seen : List Event) (task : Nat) : Prop :=
  ∃ t u earlier events later world i, machine.Run origin t earlier ∧ machine.step world i t = some (u, events) ∧
    machine.Run u s later ∧ seen = earlier ++ (events ++ later) ∧ (∃ mayInterrupt, .cancelled task mayInterrupt ∈ events) ∧
    ∀ result, .store task result ∉ t.todo

theorem CancelledInTime.step (inTime : CancelledInTime origin t seen task)
    (stepped : machine.step world i t = some (u, events)) : CancelledInTime origin u (seen ++ events) task := by
  obtain ⟨t', u', earlier, others, later, world', i', before, cancel, after, rfl, effect⟩ := inTime
  exact ⟨t', u', earlier, others, later ++ events, world', i', before, cancel, after.step world i stepped,
    by simp only [List.append_assoc], effect⟩

theorem stored_iff {result : Except TaskError Int64} {todo : List Instruction} :
    some result ∈ stages task todo ↔ .store task result ∈ todo := by
  unfold stages
  rw [List.mem_filterMap]
  constructor
  · rintro ⟨instruction, member, isStage⟩
    cases instruction <;> simp [Instruction.stage?] at isStage
    obtain ⟨rfl, rfl⟩ := isStage
    exact member
  · intro member
    exact ⟨_, member, by simp [Instruction.stage?]⟩

/-- Exactly the cancellations in time discard the result of a one-off task. -/
theorem doomed_iff_cancelledInTime (run : machine.Run (withClients config calls) s seen) {cell : TaskCell Int64}
    (isCell : s.shared.records[task]? = some (.oneOff cell)) :
    Doomed s.shared.records[task]? (stages task s.todo) ↔ CancelledInTime (withClients config calls) s seen task := by
  constructor
  · clear isCell
    induction run with
    | start => simp [Doomed, withClients, initial]
    | @step t u seen events world i run stepped ih =>
      intro doomed
      obtain ⟨cell, isCell⟩ := doomed.oneOff
      rcases (((Sound.start config calls).run run).doomed_iff stepped isCell).mp doomed with earlier | ⟨now, noStore⟩
      · exact (ih earlier).step stepped
      · exact ⟨t, u, seen, events, [], world, i, run, stepped, .start, by rw [List.append_nil], now,
          fun result member => noStore result (stored_iff.mpr member)⟩
  · rintro ⟨t, u, earlier, events, later, world, i, before, stepped, after, rfl, now, noStore⟩
    have sound := (Sound.start config calls).run before
    have soundAfter := sound.step stepped
    obtain ⟨_, _, _, _, effective, _, _, moves, effects⟩ := sound.moves stepped task
    rw [effects.mp now] at moves
    rcases moves.kind with ⟨_, oneOff⟩ | periodic
    · refine soundAfter.doomed_run after ((sound.doomed_iff stepped oneOff).mpr (.inr ⟨now, fun result member => ?_⟩))
      exact noStore result (stored_iff.mp member)
    · obtain ⟨state, periodic⟩ := soundAfter.periodic_run after periodic
      rw [isCell] at periodic
      cases periodic

end Run

/-! ## What a cancellation answers -/

/-- A cancellation of `task` is about to return true. -/
def Instruction.confirms (task : Nat) : Instruction → Bool
  | .answer other effective _ => effective && other == task
  | _ => false

/-- A cancellation of `task` takes effect. -/
def Event.cancels (task : Nat) : Event → Bool
  | .cancelled other _ => other == task
  | _ => false

/-- A cancellation of `task` returns true. -/
def Event.confirms (task : Nat) : Event → Bool
  | .cancelReturned other effective => effective && other == task
  | _ => false

private theorem Touches.confirmed {records records' : List Record} {todo todo' : List Instruction} {events : List Event}
    (touches : Touches records todo records' todo' events) (task : Nat) :
    todo.countP (Instruction.confirms task) + events.countP (Event.cancels task) =
      todo'.countP (Instruction.confirms task) + events.countP (Event.confirms task) := by
  cases touches with
  | void _ kind => rcases kind with rfl | ⟨result, rfl⟩ <;> simp [Instruction.confirms]
  | @cancel _ other cell _ mayInterrupt =>
    cases (cell.cancel mayInterrupt).1 <;>
      simp [List.countP_cons, Instruction.confirms, Event.cancels, Event.confirms]
  | _ => simp [List.countP_cons, Instruction.confirms, Event.cancels, Event.confirms]

private theorem countP_filter_of_imp {α : Type} {p q : α → Bool} (implies : ∀ a, p a = true → q a = true) (list : List α) :
    (list.filter q).countP p = list.countP p := by
  rw [List.countP_filter]
  refine List.countP_congr fun a _ => ?_
  simpa using implies a

private theorem confirms_filter (task : Nat) (todo : List Instruction) :
    (todo.filter lasting).countP (Instruction.confirms task) = todo.countP (Instruction.confirms task) := by
  refine countP_filter_of_imp (fun i => ?_) todo
  cases i <;> simp [Instruction.confirms, lasting]

private theorem cancelled_iff {task : Nat} {events : List Event} :
    (∃ mayInterrupt, .cancelled task mayInterrupt ∈ events) ↔ 0 < events.countP (Event.cancels task) := by
  rw [List.countP_pos_iff]
  constructor
  · rintro ⟨mayInterrupt, member⟩
    exact ⟨_, member, by simp [Event.cancels]⟩
  · rintro ⟨event, member, cancels⟩
    cases event <;> simp [Event.cancels] at cancels
    subst cancels
    exact ⟨_, member⟩

private theorem cancelReturned_iff {task : Nat} {events : List Event} :
    .cancelReturned task true ∈ events ↔ 0 < events.countP (Event.confirms task) := by
  rw [List.countP_pos_iff]
  constructor
  · intro member
    exact ⟨_, member, by simp [Event.confirms]⟩
  · rintro ⟨event, member, confirms⟩
    cases event <;> simp [Event.confirms] at confirms
    obtain ⟨rfl, rfl⟩ := confirms
    exact member

private theorem answer_iff {task : Nat} {todo : List Instruction} :
    (∃ logged, .answer task true logged ∈ todo) ↔ 0 < todo.countP (Instruction.confirms task) := by
  rw [List.countP_pos_iff]
  constructor
  · rintro ⟨logged, member⟩
    exact ⟨_, member, by simp [Instruction.confirms]⟩
  · rintro ⟨instruction, member, confirms⟩
    cases instruction <;> simp [Instruction.confirms] at confirms
    obtain ⟨rfl, rfl⟩ := confirms
    exact ⟨_, member⟩

private theorem Sound.confirmed {world : World} {i : Nat} {s u : System State Own Instruction} {events : List Event}
    (sound : Sound s) (stepped : machine.step world i s = some (u, events)) (task : Nat) :
    s.todo.countP (Instruction.confirms task) + events.countP (Event.cancels task) =
      u.todo.countP (Instruction.confirms task) + events.countP (Event.confirms task) := by
  obtain ⟨before, todo, todo', after, todoBefore, todoAfter, touches⟩ := sound.touches stepped
  have confirmed := touches.confirmed task
  have cancels : ∀ event, Event.cancels task event = true → event.ofCancellation = true := by
    intro event
    cases event <;> simp [Event.cancels, Event.ofCancellation]
  have returns : ∀ event, Event.confirms task event = true → event.ofCancellation = true := by
    intro event
    cases event <;> simp [Event.confirms, Event.ofCancellation]
  rw [countP_filter_of_imp cancels, countP_filter_of_imp returns] at confirmed
  rw [← confirms_filter, todoBefore, ← confirms_filter task u.todo, todoAfter]
  simp only [List.countP_append]
  omega

/-- Cancellations that took effect have returned true or are about to, and no others. -/
theorem confirmed_run {config : Config} {calls : List (List Call)} {s : System State Own Instruction}
    {seen : List Event} (run : machine.Run (withClients config calls) s seen) (task : Nat) :
    seen.countP (Event.cancels task) =
      s.todo.countP (Instruction.confirms task) + seen.countP (Event.confirms task) := by
  induction run with
  | start =>
    have none : (withClients config calls).todo.countP (Instruction.confirms task) = 0 := by
      rw [← confirms_filter, forgettable_todo]
      rfl
    rw [none]
    rfl
  | step world i run stepped ih =>
    have confirmed := ((Sound.start config calls).run run).confirmed stepped task
    rw [List.countP_append, List.countP_append]
    omega

/-- A join gets the news of a cancellation exactly if one took effect in time, before the thread that ran the
task had looked for it. A cancellation returns true exactly if it takes effect, in time or not. -/
theorem join_cancelled_iff {config : Config} {calls : List (List Call)} {s : System State Own Instruction}
    {seen : List Event} (run : machine.Run (withClients config calls) s seen) {task : Nat}
    {cell joined : TaskCell Int64} {result : Except TaskError Int64} (isCell : s.shared.cell? task = some cell)
    (joins : cell.join? = some (result, joined)) :
    (result = .error .cancelled ↔ CancelledInTime (withClients config calls) s seen task) ∧
      ((∃ mayInterrupt, .cancelled task mayInterrupt ∈ seen) ↔
        .cancelReturned task true ∈ seen ∨ ∃ logged, .answer task true logged ∈ s.todo) := by
  constructor
  · have record := cell?_eq_some_iff.mp isCell
    have accounted := ((Sound.start config calls).run run).accounted task
    rw [← doomed_iff_cancelledInTime run record, record]
    rw [record] at accounted
    obtain ⟨state, mark, interrupt⟩ := cell
    cases state with
    | pending | running => cases joins
    | finished =>
      cases joins
      exact Iff.rfl
    | taken => exact accounted.elim
  · have confirmed := confirmed_run run task
    rw [cancelled_iff, cancelReturned_iff, answer_iff]
    omega

/-- One client submits a task, and another one cancels it. -/
def submitterAndCanceller : System State Own Instruction :=
  withClients ⟨1, 1, 1, 0, "pool"⟩ [[.submit .immediate "task" [[.result 7]]], [.cancel 0 false]]

/-- The cancellation comes after so many steps of the worker. -/
def cancelledAfter (steps : Nat) : List (World × Nat) :=
  (List.replicate 6 2 ++ List.replicate steps 4 ++ [3, 3, 4, 4]).map (⟨0, false, []⟩, ·)

/-- The script has ended, and its thread has not looked for a cancellation yet. -/
theorem cancelled_before_the_look : ∃ s seen cell joined, machine.Run submitterAndCanceller s seen ∧
    s.shared.cell? 0 = some cell ∧ cell.join? = some (.error .cancelled, joined) ∧
    CancelledInTime submitterAndCanceller s seen 0 := by
  have ends : (machine.follow (cancelledAfter 12) (submitterAndCanceller, [])).map
      (fun past => past.1.shared.cell? 0) = some (some ⟨.finished (.error .cancelled), true, false⟩) := rfl
  obtain ⟨⟨s, seen⟩, followed, isCell⟩ := Option.map_eq_some_iff.mp ends
  have run := Machine.run_of_follow .start followed
  exact ⟨s, seen, _, _, run, isCell, rfl, (join_cancelled_iff run isCell rfl).1.mp rfl⟩

/-- The thread has looked for a cancellation and is about to store the result: the cancellation returns true,
and the join gets the result all the same. -/
theorem result_of_cancelled_task : ∃ s seen cell joined, machine.Run submitterAndCanceller s seen ∧
    .cancelReturned 0 true ∈ seen ∧ s.shared.cell? 0 = some cell ∧ cell.join? = some (.ok 7, joined) := by
  have ends : (machine.follow (cancelledAfter 13) (submitterAndCanceller, [])).map
      (fun past => (past.2, past.1.shared.cell? 0)) =
      some ([.accepted 0, .taken 0, .began 0, .ended 0 true, .cancelled 0 false, .cancelReturned 0 true],
        some ⟨.finished (.ok 7), true, false⟩) := rfl
  obtain ⟨⟨s, seen⟩, followed, same⟩ := Option.map_eq_some_iff.mp ends
  obtain ⟨events, isCell⟩ := Prod.mk.inj same
  refine ⟨s, seen, _, _, Machine.run_of_follow .start followed, ?_, isCell, rfl⟩
  simp only at events
  rw [events]
  decide

end Pool

end PeerSubstrate.Executor
