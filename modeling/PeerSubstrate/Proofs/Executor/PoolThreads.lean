import PeerSubstrate.Executor.Pool

/-!
# Threads of the scheduling pool

A pool with any number of client threads, each of them about to make any calls. Whatever the threads
do, a panic in one of them ends before anything is lost that a handle depends on (`Guarded`).
-/

namespace PeerSubstrate.Executor.Pool
open PeerSubstrate.Time PeerSubstrate.Concurrency

/-- What a client can ask of the pool. -/
inductive Call where
  | submit (channel : Channel) (id : String) (scripts : List Script)
  | cancel (task : Nat) (mayInterrupt : Bool)
  | shutdown

/-- The instructions of a call. -/
def Call.todo : Call → List Instruction
  | .submit channel id scripts => [.submit channel id scripts]
  | .cancel task mayInterrupt => [.cancel task mayInterrupt false]
  | .shutdown => [.closeImmediate, .closeScheduled]

/-- A new pool and its clients. -/
def withClients (config : Config) (calls : List (List Call)) : System State Own Instruction :=
  ⟨(initial config).shared, (initial config).threads ++ calls.map fun calls => ⟨{ name := "" }, calls.flatMap Call.todo⟩⟩

namespace Instruction

/-- A worker begins or ends with this, or a client calls the pool. -/
def initial : Instruction → Bool
  | .take | .exit | .submit _ _ _ | .cancel _ _ _ | .closeImmediate | .closeScheduled => true
  | _ => false

end Instruction

theorem initial_withClients {config : Config} {calls : List (List Call)} {thread : Thread Own Instruction}
    (member : thread ∈ (withClients config calls).threads) : ∀ i ∈ thread.todo, i.initial = true := by
  intro i here
  simp only [withClients, initial, List.mem_append, List.mem_cons, List.mem_map, List.mem_range] at member
  rcases member with (rfl | ⟨number, -, rfl⟩) | ⟨ofClient, -, rfl⟩
  · cases here
  · simp only [List.mem_cons, List.not_mem_nil, or_false] at here
    rcases here with rfl | rfl <;> rfl
  · obtain ⟨call, -, here⟩ := List.mem_flatMap.mp here
    cases call with
    | submit | cancel =>
      cases List.mem_singleton.mp here
      rfl
    | shutdown =>
      simp only [Call.todo, List.mem_cons, List.not_mem_nil, or_false] at here
      rcases here with rfl | rfl <;> rfl

namespace Instruction

/-- The end of a run and the end of a cancellation, which must not be lost. -/
def lasting : Instruction → Bool
  | .conclude _ | .store _ _ | .answer _ _ _ => true
  | _ => false

/-- Here, or in what follows from it, the thread may panic. -/
def raises : Instruction → Bool
  | .submit _ _ _ | .act _ | .take | .fire _ | .count _ | .recheck _ | .renew _ => true
  | _ => false

end Instruction

open Instruction (lasting raises unwind)

/-- Wherever the thread may panic, nothing lasting is lost. -/
def Guarded : List Instruction → Prop
  | [] => True
  | instruction :: rest =>
    (instruction.raises = true → (unwind rest).filter lasting = rest.filter lasting) ∧ Guarded rest

private theorem Guarded.unwind {todo : List Instruction} (guarded : Guarded todo) : Guarded (unwind todo) := by
  induction todo with
  | nil => trivial
  | cons instruction rest ih =>
    rw [Instruction.unwind, List.dropWhile_cons]
    split
    · exact ih guarded.2
    · exact guarded

private theorem Guarded.prepend {todo rest : List Instruction} (calm : ∀ i ∈ todo, i.raises = false)
    (guarded : Guarded rest) : Guarded (todo ++ rest) := by
  induction todo with
  | nil => exact guarded
  | cons instruction todo ih =>
    obtain ⟨first, others⟩ := List.forall_mem_cons.mp calm
    refine ⟨fun raises => ?_, ih others⟩
    simp [first] at raises

/-- A panic inside of a script ends with the script. -/
theorem Guarded.script {task : Nat} {rest : List Instruction} (guarded : Guarded rest) (script : Script) :
    Guarded (script.map .act ++ .caught task :: rest) := by
  induction script with
  | nil => exact ⟨by simp [raises], guarded⟩
  | cons action script ih =>
    refine ⟨fun _ => ?_, ih⟩
    clear ih
    induction script with
    | nil => rfl
    | cons action script ih => exact ih

theorem guarded_of_forgettable {todo : List Instruction} (forgettable : todo.filter lasting = []) : Guarded todo := by
  induction todo with
  | nil => trivial
  | cons instruction rest ih =>
    have others : rest.filter lasting = [] := by
      rw [List.filter_eq_nil_iff] at forgettable ⊢
      exact (List.forall_mem_cons.mp forgettable).2
    refine ⟨fun _ => ?_, ih others⟩
    rw [others, List.filter_eq_nil_iff]
    intro i member
    exact List.filter_eq_nil_iff.mp others i ((List.dropWhile_sublist _).mem member)

section Perform

variable {world : World} {me : Nat} {s : State} {own : Own} {instruction : Instruction} {rest : List Instruction}
  {effect : Effect State Own Instruction Event}

/-- The thread stays guarded, and so is every thread it starts. -/
def StaysGuarded (effect : Effect State Own Instruction Event) : Prop :=
  Guarded effect.thread.todo ∧ ∀ thread ∈ effect.started, thread.todo.filter lasting = []

private theorem StaysGuarded.goOn {todo : List Instruction} {events : List Event}
    (performed : Pool.goOn s own rest todo events = some effect) (guarded : Guarded (todo ++ rest)) :
    StaysGuarded effect := by
  cases performed
  exact ⟨guarded, by simp⟩

private theorem StaysGuarded.raise {message : String} (performed : Pool.raise s own rest message = some effect)
    (guarded : Guarded rest) : StaysGuarded effect := by
  cases performed
  exact ⟨guarded.unwind, by simp⟩

private theorem Guarded.submit {now : Instant} {channel : Channel} {id : String} {scripts : List Script}
    (guarded : Guarded rest) (performed : performSubmit s own rest now channel id scripts = some effect) :
    StaysGuarded effect := by
  cases channel with
  | detached | immediate | dedicated | atInstant =>
    exact .goOn performed (guarded.prepend (by simp [raises]))
  | after | repeating =>
    simp only [performSubmit] at performed
    split at performed
    · exact .goOn performed (guarded.prepend (by simp [raises]))
    · exact .raise performed guarded

private theorem Guarded.action {action : Action} (guarded : Guarded (.act action :: rest))
    (performed : performAction s own rest world action = some effect) : StaysGuarded effect := by
  obtain ⟨shield, inside⟩ := guarded
  cases action with
  | log | nameThread | reportInterrupt | result => exact .goOn performed inside
  | panic => exact .raise performed inside
  | cancel id mayInterrupt =>
    simp only [performAction] at performed
    split at performed
    · exact .goOn performed (inside.prepend (by simp [raises]))
    · exact .goOn performed inside
  | shutdown => exact .goOn performed (inside.prepend (by simp [raises]))
  | submit => exact .goOn performed ⟨fun _ => shield rfl, inside⟩
  | gate =>
    simp only [performAction] at performed
    split at performed
    · exact .goOn performed inside
    · simp at performed

private theorem Guarded.guarded {task : Nat} {previous : Option Nat} (guarded : Guarded rest) (script : Script) :
    Guarded (Instruction.guarded task script previous ++ rest) := by
  have behind : Guarded (.publish previous :: rest) := ⟨by simp [raises], guarded⟩
  have inside := @Guarded.script task _ behind script
  rw [Instruction.guarded]
  simpa using (show Guarded (.publish (some task) :: _) from ⟨by simp [raises], inside⟩)

theorem Guarded.run {job : Job} (guarded : Guarded rest) (performed : performRun s own rest job = some effect) :
    StaysGuarded effect := by
  unfold performRun at performed
  split at performed
  · split at performed
    · refine .goOn performed ?_
      rw [List.append_assoc]
      exact Guarded.guarded (guarded.prepend (by simp [raises])) job.script
    · exact .goOn performed guarded
  · refine .goOn performed ?_
    rw [List.append_assoc]
    exact guarded.script job.script

/-- Every step keeps a thread guarded. -/
theorem Guarded.perform (guarded : Guarded (instruction :: rest))
    (performed : Pool.perform world me s own instruction rest = some effect) : StaysGuarded effect := by
  obtain ⟨shield, inside⟩ := guarded
  cases instruction with
  | submit => exact inside.submit performed
  | draw deadline work funnelled =>
    refine .goOn performed (inside.prepend ?_)
    cases funnelled <;> simp [raises]
  | funnel step =>
    refine .goOn performed (inside.prepend fun i member => ?_)
    obtain ⟨next, -, rfl⟩ := List.mem_map.mp member
    cases next <;> rfl
  | push entry =>
    simp only [Pool.perform] at performed
    split at performed
    · exact .goOn performed inside
    · exact .goOn performed (inside.prepend (by simp [raises]))
  | abandon work =>
    cases work with
    | once job => exact .goOn performed (inside.prepend (by simp [raises]))
    | periodic periodic => exact .goOn performed inside
  | drop job =>
    simp only [Pool.perform] at performed
    split at performed <;> exact .goOn performed inside
  | immediate step =>
    obtain ⟨⟨immediate, next⟩, -, rfl⟩ := Option.map_eq_some_iff.mp performed
    refine ⟨inside.prepend fun i member => ?_, fun thread member => ?_⟩
    · obtain ⟨one, -, member⟩ := List.mem_flatMap.mp member
      cases one <;> simp [Instruction.ofImmediate] at member <;> subst member <;> rfl
    · obtain ⟨one, -, starts⟩ := List.mem_filterMap.mp member
      cases one <;> simp at starts
      subst starts
      rfl
  | run job => exact inside.run performed
  | act action => exact Guarded.action ⟨shield, inside⟩ performed
  | caught | publish | markCancelled | markInterrupt | answer | closeImmediate | exit => exact .goOn performed inside
  | conclude task =>
    simp only [Pool.perform] at performed
    split at performed
    · exact .goOn performed (inside.prepend (by simp [raises]))
    · exact .goOn performed inside
  | store task result =>
    simp only [Pool.perform] at performed
    split at performed <;> exact .goOn performed inside
  | take =>
    simp only [Pool.perform, performTake] at performed
    split at performed
    · exact .goOn performed inside
    · simp at performed
    · split at performed
      · exact .goOn performed ⟨by simp [raises], shield, inside⟩
      · exact .goOn performed ⟨fun _ => shield rfl, shield, inside⟩
  | fire entry =>
    simp only [Pool.perform] at performed
    split at performed
    · exact .goOn performed inside
    · refine .goOn performed ?_
      rw [List.append_assoc]
      exact @Guarded.guarded (.count entry :: rest) entry.task.task own.interrupt ⟨fun _ => shield rfl, inside⟩ _
  | count entry =>
    simp only [Pool.perform] at performed
    split at performed
    · exact .goOn performed inside
    · exact .goOn performed ⟨fun _ => shield rfl, inside⟩
  | recheck entry =>
    simp only [Pool.perform] at performed
    split at performed
    · exact .goOn performed inside
    · exact .goOn performed ⟨fun _ => shield rfl, inside⟩
  | renew entry =>
    simp only [Pool.perform] at performed
    split at performed
    · exact .goOn performed (inside.prepend (by simp [raises]))
    · exact .raise performed inside
  | cancel task mayInterrupt logged =>
    simp only [Pool.perform, performCancel] at performed
    split at performed
    · exact .goOn performed (inside.prepend (by simp [raises]))
    · split at performed
      · exact .goOn performed (inside.prepend (by simp [raises]))
      · refine .goOn performed (inside.prepend ?_)
        cases mayInterrupt <;> simp [raises]
    · exact .goOn performed (inside.prepend (by simp [raises]))
  | closeScheduled =>
    refine .goOn performed (inside.prepend fun i member => ?_)
    simp only [List.mem_append, List.mem_map, List.mem_singleton] at member
    rcases member with ⟨entry, -, rfl⟩ | rfl <;> rfl
  | collect =>
    refine .goOn performed (inside.prepend fun i member => ?_)
    obtain ⟨thread, -, rfl⟩ := List.mem_map.mp member
    rfl
  | join thread =>
    simp only [Pool.perform] at performed
    split at performed
    · exact .goOn performed inside
    · simp at performed

end Perform

end PeerSubstrate.Executor.Pool
