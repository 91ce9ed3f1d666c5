import PeerSubstrate.Proofs.Executor.Growth
import PeerSubstrate.Proofs.Executor.Shutdown

/-!
# When a deadline cannot be represented

A scheduled thread panics when the next deadline of a repeating task cannot be represented. That task is lost with it, and
nothing else is: whatever comes behind the points of its loop, no job depends on it (`Unladen`). So what a step does with jobs
can be said for every clock (`Alters`).
-/

namespace PeerSubstrate.Executor.Pool
open PeerSubstrate.Time PeerSubstrate.Concurrency
open Instruction (custody? immediate? weighty unwind)

namespace Instruction

/-- A point in the loop of a scheduled thread. -/
def cycles : Instruction → Bool
  | .take | .fire _ | .count _ | .recheck _ | .renew _ => true
  | _ => false

/-- The thread may panic here. -/
def panics : Instruction → Bool
  | .submit _ _ _ | .act _ | .renew _ => true
  | _ => false

end Instruction

/-- Behind the points of a scheduled thread's loop there is nothing that jobs depend on. -/
def Unladen : List Instruction → Prop
  | [] => True
  | i :: rest => (i.cycles = true → rest.filter weighty = []) ∧ Unladen rest

theorem Unladen.append {new rest : List Instruction} (ahead : Unladen new) (unladen : Unladen rest)
    (light : (∃ i ∈ new, i.cycles = true) → rest.filter weighty = []) : Unladen (new ++ rest) := by
  induction new with
  | nil => exact unladen
  | cons i new ih =>
    rw [List.cons_append]
    refine ⟨fun cycles => ?_, ih ahead.2 fun ⟨j, member, cycles⟩ => light ⟨j, List.mem_cons_of_mem _ member, cycles⟩⟩
    rw [List.filter_append, ahead.1 cycles, light ⟨i, List.mem_cons_self, cycles⟩, List.append_nil]

private theorem Unladen.prepend {new rest : List Instruction} (calm : ∀ i ∈ new, i.cycles = false) (unladen : Unladen rest) :
    Unladen (new ++ rest) := by
  induction new with
  | nil => exact unladen
  | cons i new ih =>
    obtain ⟨first, others⟩ := List.forall_mem_cons.mp calm
    exact ⟨fun cycles => absurd (first.symm.trans cycles) Bool.noConfusion, ih others⟩

theorem unladen_of_calm {todo : List Instruction} (calm : ∀ i ∈ todo, i.cycles = false) : Unladen todo := by
  rw [← List.append_nil todo]
  exact Unladen.prepend calm trivial

private theorem Unladen.unwind {todo : List Instruction} (unladen : Unladen todo) : Unladen (unwind todo) := by
  induction todo with
  | nil => trivial
  | cons i rest ih =>
    rw [Instruction.unwind, List.dropWhile_cons]
    split
    · exact ih unladen.2
    · exact unladen

/-- What a thread goes on with after an instruction: with `new` things, and then with what it had before, or where its
panic stops. -/
inductive GoesOn (i : Instruction) (rest : List Instruction) : List Instruction → Prop
  | on {new} : Unladen new → (∀ j ∈ new, j.cycles = true → i.cycles = true) → GoesOn i rest (new ++ rest)
  | raised : i.panics = true → GoesOn i rest (unwind rest)

section Perform

variable {world : World} {me : Nat} {s s' : State} {own own' : Own} {instruction : Instruction} {rest : List Instruction}
  {effect : Effect State Own Instruction Event}

private theorem GoesOn.goOn {todo : List Instruction} {events : List Event}
    (performed : Pool.goOn s' own' rest todo events = some effect) (calm : ∀ i ∈ todo, i.cycles = false) :
    GoesOn instruction rest effect.thread.todo := by
  cases performed
  exact .on (unladen_of_calm calm) fun i member cycles => absurd ((calm i member).symm.trans cycles) Bool.noConfusion

private theorem GoesOn.cycle {todo : List Instruction} {events : List Event}
    (performed : Pool.goOn s' own' rest todo events = some effect) (cycles : instruction.cycles = true)
    (unladen : Unladen todo) : GoesOn instruction rest effect.thread.todo := by
  cases performed
  exact .on unladen fun _ _ _ => cycles

private theorem GoesOn.raise {message : String} (performed : Pool.raise s own rest message = some effect)
    (panics : instruction.panics = true) : GoesOn instruction rest effect.thread.todo := by
  cases performed
  exact .raised panics

private theorem calm_acts (script : Script) : ∀ i ∈ script.map Instruction.act, i.cycles = false := by
  intro i member
  obtain ⟨action, -, rfl⟩ := List.mem_map.mp member
  rfl

theorem calm_guarded (task : Nat) (script : Script) (previous : Option Nat) :
    ∀ i ∈ Instruction.guarded task script previous, i.cycles = false := by
  intro i member
  simp only [Instruction.guarded, List.mem_append, List.mem_cons, List.not_mem_nil, or_false] at member
  rcases member with (rfl | inside) | rfl | rfl
  · rfl
  · exact calm_acts script i inside
  · rfl
  · rfl

private theorem goesOn_submit {now : Instant} {channel : Channel} {id : String} {scripts : List Script}
    (performed : performSubmit s own rest now channel id scripts = some effect) :
    GoesOn (.submit channel id scripts) rest effect.thread.todo := by
  cases channel with
  | detached | immediate | dedicated | atInstant => exact .goOn performed (by simp [Instruction.cycles])
  | after | repeating =>
    simp only [performSubmit] at performed
    split at performed
    · exact .goOn performed (by simp [Instruction.cycles])
    · exact .raise performed rfl

private theorem goesOn_action {action : Action} (performed : performAction s own rest world action = some effect) :
    GoesOn (.act action) rest effect.thread.todo := by
  cases action with
  | log | nameThread | reportInterrupt | result | shutdown | submit =>
    exact .goOn performed (by simp [Instruction.cycles])
  | panic => exact .raise performed rfl
  | cancel id mayInterrupt =>
    simp only [performAction] at performed
    split at performed <;> exact .goOn performed (by simp [Instruction.cycles])
  | gate =>
    simp only [performAction] at performed
    split at performed
    · exact .goOn performed (by simp)
    · cases performed

private theorem goesOn_run {job : Job} (performed : performRun s own rest job = some effect) :
    GoesOn (.run job) rest effect.thread.todo := by
  unfold performRun at performed
  split at performed
  · split at performed
    · refine .goOn performed fun i member => ?_
      rcases List.mem_append.mp member with inside | last
      · exact calm_guarded _ _ _ i inside
      · cases List.mem_singleton.mp last
        rfl
    · exact .goOn performed (by simp)
  · refine .goOn performed fun i member => ?_
    rcases List.mem_append.mp member with inside | last
    · exact calm_acts _ i inside
    · cases List.mem_singleton.mp last
      rfl

private theorem goesOn_cancel {task : Nat} {mayInterrupt logged : Bool}
    (performed : performCancel s own rest task mayInterrupt logged = some effect) :
    GoesOn (.cancel task mayInterrupt logged) rest effect.thread.todo := by
  unfold performCancel at performed
  split at performed
  · exact .goOn performed (by simp [Instruction.cycles])
  · split at performed
    · exact .goOn performed (by simp [Instruction.cycles])
    · refine .goOn performed ?_
      cases mayInterrupt <;> simp [Instruction.cycles]
  · exact .goOn performed (by simp [Instruction.cycles])

private theorem goesOn_take {now : Instant} (performed : performTake s own rest now = some effect) :
    GoesOn .take rest effect.thread.todo := by
  unfold performTake at performed
  split at performed
  · exact .goOn performed (by simp)
  · cases performed
  · split at performed <;> exact .cycle performed rfl (by simp [Unladen])

theorem goesOn_of_perform (performed : perform world me s own instruction rest = some effect) :
    GoesOn instruction rest effect.thread.todo := by
  cases instruction with
  | submit => exact goesOn_submit performed
  | act => exact goesOn_action performed
  | run => exact goesOn_run performed
  | cancel => exact goesOn_cancel performed
  | take => exact goesOn_take performed
  | draw deadline work funnelled =>
    refine .goOn performed ?_
    cases funnelled <;> simp [Instruction.cycles]
  | funnel step =>
    refine .goOn performed fun i member => ?_
    obtain ⟨next, -, rfl⟩ := List.mem_map.mp member
    cases next <;> rfl
  | immediate step =>
    obtain ⟨⟨immediate, next⟩, -, rfl⟩ := Option.map_eq_some_iff.mp performed
    have calm : ∀ i ∈ next.flatMap Instruction.ofImmediate, i.cycles = false := by
      intro i member
      obtain ⟨one, -, here⟩ := List.mem_flatMap.mp member
      cases one <;> simp [Instruction.ofImmediate] at here <;> subst here <;> rfl
    exact .on (unladen_of_calm calm) fun i member cycles => absurd ((calm i member).symm.trans cycles) Bool.noConfusion
  | push | conclude =>
    simp only [perform] at performed
    split at performed <;> exact .goOn performed (by simp [Instruction.cycles])
  | abandon work => cases work <;> exact .goOn performed (by simp [Instruction.cycles])
  | drop | store =>
    simp only [perform] at performed
    split at performed <;> exact .goOn performed (by simp)
  | caught | publish | markCancelled | markInterrupt | answer | closeImmediate | exit => exact .goOn performed (by simp)
  | fire entry =>
    simp only [perform] at performed
    split at performed
    · exact .goOn performed (by simp)
    · exact .cycle performed rfl (.prepend (calm_guarded _ _ _) ⟨fun _ => rfl, trivial⟩)
  | count entry =>
    simp only [perform] at performed
    split at performed
    · exact .goOn performed (by simp)
    · exact .cycle performed rfl (by simp [Unladen])
  | recheck entry =>
    simp only [perform] at performed
    split at performed
    · exact .goOn performed (by simp)
    · exact .cycle performed rfl (by simp [Unladen])
  | renew entry =>
    simp only [perform] at performed
    split at performed
    · exact .goOn performed (by simp [Instruction.cycles])
    · exact .raise performed rfl
  | closeScheduled =>
    refine .goOn performed fun i member => ?_
    simp only [List.mem_append, List.mem_map, List.mem_singleton] at member
    rcases member with ⟨entry, -, rfl⟩ | rfl <;> rfl
  | collect =>
    refine .goOn performed fun i member => ?_
    obtain ⟨thread, -, rfl⟩ := List.mem_map.mp member
    rfl
  | join thread =>
    simp only [perform] at performed
    split at performed
    · exact .goOn performed (by simp)
    · cases performed

private theorem light_unwind {todo : List Instruction} (light : todo.filter weighty = []) : (unwind todo).filter weighty = [] :=
  List.filter_eq_nil_iff.mpr fun i member => List.filter_eq_nil_iff.mp light i ((List.dropWhile_suffix _).subset member)

/-- A panic passes over nothing that jobs depend on. -/
theorem weighty_raised (panics : instruction.panics = true) (orderly : Orderly (instruction :: rest))
    (unladen : Unladen (instruction :: rest)) : (unwind rest).filter weighty = rest.filter weighty := by
  cases instruction with
  | submit | act => exact weighty_unwind orderly.1
  | renew =>
    have light := unladen.1 rfl
    exact (light_unwind light).trans light.symm
  | _ => cases panics

/-- Whatever a thread goes on with, of what it had before only that is gone on which no job depends. -/
theorem GoesOn.spares {todo : List Instruction} (goesOn : GoesOn instruction rest todo) (orderly : Orderly (instruction :: rest))
    (unladen : Unladen (instruction :: rest)) : Unladen todo ∧
      ∃ new dropped behind, todo = new ++ behind ∧ rest = dropped ++ behind ∧ dropped.filter weighty = [] := by
  cases goesOn with
  | @on new ahead cycles =>
    refine ⟨ahead.append unladen.2 fun ⟨i, member, cycle⟩ => unladen.1 (cycles i member cycle), new, [], rest, rfl, rfl, rfl⟩
  | raised panics =>
    refine ⟨unladen.2.unwind, [], rest.takeWhile fun i => !i.stopsPanic, unwind rest, rfl,
      List.takeWhile_append_dropWhile.symm, ?_⟩
    have split : rest = rest.takeWhile (fun i => !i.stopsPanic) ++ unwind rest := List.takeWhile_append_dropWhile.symm
    have parts := congrArg (List.filter weighty) split
    rw [List.filter_append, weighty_raised panics orderly unladen] at parts
    exact List.append_cancel_right (parts.symm.trans (List.nil_append _).symm)

/-- What a step does with jobs (`Changes`), or that it loses a repeating task. -/
inductive Alters (h : Stock) : List Instruction → Stock → List Instruction → List Event → Prop
  | changes {gone h' new events} : Changes h gone h' new events → Alters h gone h' new events
  | lapse (entry : Scheduled.Entry Periodic) : Alters h [.renew entry] h [] []

/-- What a thread does when it performs the instruction, with this effect, whatever the time. -/
structure Proceeds (h : Stock) (instruction : Instruction) (rest : List Instruction)
    (effect : Effect State Own Instruction Event) : Prop where
  orderly : Orderly effect.thread.todo
  starts : ∀ thread ∈ effect.started, Orderly thread.todo
  alters : ∃ new, ((effect.thread.todo ++ effect.started.flatMap Thread.todo).filter weighty).Perm
      (new ++ rest.filter weighty) ∧
    Alters h instruction.gone effect.shared.stock new (effect.events.filter Event.telling)

theorem Orderly.proceeds (orderly : Orderly (instruction :: rest)) (unladen : Unladen (instruction :: rest))
    (running : ∀ task result cell, instruction = .store task result → s.records[task]? = some (.oneOff cell) →
      cell.state = .running)
    (performed : perform world me s own instruction rest = some effect) : Proceeds s.stock instruction rest effect := by
  by_cases inTime : representable world instruction = true
  · obtain ⟨orderly', starts, new, same, changes⟩ := orderly.continues inTime running performed
    exact ⟨orderly', starts, new, same, .changes changes⟩
  · cases instruction with
    | renew entry =>
      have late : nextDeadline entry.task.schedule entry.deadline world.now = none := by
        simpa [representable] using inTime
      have light : rest.filter weighty = [] := unladen.1 rfl
      simp only [perform, late] at performed
      cases performed
      refine ⟨orderly.2.unwind, List.forall_mem_nil _, [], ?_, .lapse entry⟩
      rw [light, List.flatMap_nil, List.append_nil, light_unwind light, List.append_nil]
    | _ => exact absurd rfl inTime

end Perform

end PeerSubstrate.Executor.Pool
