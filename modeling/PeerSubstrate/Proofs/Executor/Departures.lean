import PeerSubstrate.Proofs.Executor.DueOrder
import PeerSubstrate.Proofs.Executor.Interruption

/-!
# How scheduled threads end

A thread of the scheduled pool goes around its loop (`Looped`) until it finds the pool shut down, or until the next deadline of
the task it has run cannot be represented: a panic in a script ends with the script, and this one ends the thread (`Attended`).
When all of them have ended, what is in the scheduled queue stays there (`Stranded`).
-/

namespace PeerSubstrate.Executor.Pool
open PeerSubstrate.Time PeerSubstrate.Concurrency
open Instruction (looks unwind)

namespace Instruction

/-- What a thread goes on with behind a point of its loop. -/
def behind : Instruction → List Instruction
  | .take => [.exit]
  | _ => [.take, .exit]

/-- The task whose next deadline cannot be represented. -/
def lapse? (world : World) : Instruction → Option Nat
  | .renew entry => match nextDeadline entry.task.schedule entry.deadline world.now with
    | some _ => none
    | none => some entry.task.task
  | _ => none

private theorem lapse?_eq_some_iff {world : World} {i : Instruction} {task : Nat} : i.lapse? world = some task ↔
    ∃ entry, i = .renew entry ∧ entry.task.task = task ∧
      nextDeadline entry.task.schedule entry.deadline world.now = none := by
  constructor
  · intro lapses
    cases i with
    | renew entry =>
      simp only [lapse?] at lapses
      split at lapses
      · cases lapses
      · next never => exact ⟨entry, rfl, Option.some.inj lapses, never⟩
    | _ => cases lapses
  · rintro ⟨entry, rfl, rfl, never⟩
    simp only [lapse?, never]

theorem lapse?_eq_none_iff {world : World} {i : Instruction} : i.lapse? world = none ↔ representable world i = true := by
  cases i with
  | renew entry =>
    simp only [lapse?, representable]
    split <;> simp [*]
  | _ => exact ⟨fun _ => rfl, fun _ => rfl⟩

end Instruction

open Instruction (lapse?)

/-- Behind every point of its loop a thread goes on with the loop. -/
def Looped : List Instruction → Prop
  | [] => True
  | i :: rest => (i.cycles = true → rest = i.behind) ∧ Looped rest

private theorem Looped.cons {i : Instruction} {rest : List Instruction} (calm : i.cycles = false) (looped : Looped rest) :
    Looped (i :: rest) :=
  ⟨fun cycles => absurd (calm.symm.trans cycles) Bool.false_ne_true, looped⟩

private theorem Looped.prepend {new rest : List Instruction} (calm : ∀ i ∈ new, i.cycles = false) (looped : Looped rest) :
    Looped (new ++ rest) := by
  induction new with
  | nil => exact looped
  | cons i new ih =>
    obtain ⟨first, others⟩ := List.forall_mem_cons.mp calm
    exact (ih others).cons first

private theorem looped_of_calm {todo : List Instruction} (calm : ∀ i ∈ todo, i.cycles = false) : Looped todo := by
  rw [← List.append_nil todo]
  exact Looped.prepend calm trivial

private theorem Looped.unwind {todo : List Instruction} (looped : Looped todo) : Looped (unwind todo) := by
  induction todo with
  | nil => trivial
  | cons i rest ih =>
    rw [Instruction.unwind, List.dropWhile_cons]
    split
    · exact ih looped.2
    · exact looped

section Perform

variable {world : World} {me : Nat} {s : State} {own : Own} {instruction : Instruction} {rest : List Instruction}
  {effect : Effect State Own Instruction Event} {task : Nat}

/-- Every step leaves the loop as it is. -/
theorem Looped.perform (looped : Looped (instruction :: rest))
    (performed : perform world me s own instruction rest = some effect) : Looped effect.thread.todo := by
  obtain ⟨loop, inside⟩ := looped
  have onward : ∀ i : Instruction, rest = i.behind → Looped (i :: rest) := fun i isRest => ⟨fun _ => isRest, inside⟩
  -- Only a point of the loop leads to another one, and which one follows is seen at each of them.
  cases cycles : instruction.cycles with
  | false =>
    have goesOn := goesOn_of_perform performed
    generalize effect.thread.todo = todo at goesOn ⊢
    cases goesOn with
    | on _ only =>
      refine inside.prepend fun j member => Bool.eq_false_iff.mpr fun here => ?_
      exact absurd (cycles.symm.trans (only j member here)) Bool.noConfusion
    | raised => exact inside.unwind
  | true =>
    cases instruction with
    | take =>
      have isRest : rest = [.exit] := loop rfl
      have again : Looped (.take :: rest) := ⟨loop, inside⟩
      simp only [Pool.perform, performTake] at performed
      split at performed
      · cases performed
        exact inside
      · cases performed
      · split at performed <;> cases performed
        · exact again.cons rfl
        · exact ⟨fun _ => isRest ▸ rfl, again⟩
    | fire entry =>
      simp only [Pool.perform] at performed
      split at performed
      · cases performed
        exact inside
      · cases performed
        rw [List.append_assoc]
        exact Looped.prepend (calm_guarded _ _ _) (onward (.count entry) (loop rfl))
    | count entry =>
      simp only [Pool.perform] at performed
      split at performed <;> cases performed
      · exact inside
      · exact onward (.recheck entry) (loop rfl)
    | recheck entry =>
      simp only [Pool.perform] at performed
      split at performed <;> cases performed
      · exact inside
      · exact onward (.renew entry) (loop rfl)
    | renew entry =>
      simp only [Pool.perform] at performed
      split at performed <;> cases performed
      · exact inside.cons rfl
      · exact inside.unwind
    | _ => cases cycles

/-- The panic that loses a task ends the thread, and does nothing else. -/
theorem lapse_of_perform (looped : Looped (instruction :: rest)) (lapses : lapse? world instruction = some task)
    (performed : perform world me s own instruction rest = some effect) : ∃ entry, instruction = .renew entry ∧
      entry.task.task = task ∧ rest = [.take, .exit] ∧
      effect = { shared := s, thread := ⟨{ own with outcome := .error Instant.overflowMessage }, [.exit]⟩ } := by
  obtain ⟨entry, rfl, isTask, never⟩ := Instruction.lapse?_eq_some_iff.mp lapses
  have isRest : rest = [.take, .exit] := looped.1 rfl
  subst isRest
  simp only [perform, never] at performed
  cases performed
  exact ⟨entry, rfl, isTask, rfl, rfl⟩

/-- No panic in a script takes a thread out of its loop. -/
theorem take_mem_unwind (loose : ∀ i ∈ rest.takeWhile (fun i => !i.stopsPanic), i.loose = true) (member : .take ∈ rest) :
    .take ∈ unwind rest := by
  rw [← List.takeWhile_append_dropWhile (p := fun i : Instruction => !i.stopsPanic) (l := rest)] at member
  rcases List.mem_append.mp member with passed | stays
  · cases loose _ passed
  · exact stays

/-- A thread stays in its loop unless the pool is shut down or a task is lost. -/
theorem take_of_perform_or (orderly : Orderly (instruction :: rest)) (looped : Looped (instruction :: rest))
    (member : .take ∈ instruction :: rest) (performed : perform world me s own instruction rest = some effect) :
    .take ∈ effect.thread.todo ∨
      effect.thread.todo = [.exit] ∧ (s.scheduled.stopped = true ∨ ∃ task, lapse? world instruction = some task) := by
  by_cases isTake : instruction = .take
  · subst isTake
    have isRest : rest = [.exit] := looped.1 rfl
    simp only [perform, performTake] at performed
    split at performed
    · next stops =>
      cases performed
      refine .inr ⟨isRest, .inl ?_⟩
      unfold Scheduled.Shared.take at stops
      split at stops
      · next stopped => exact stopped
      · split at stops
        · cases stops
        · split at stops <;> cases stops
    · cases performed
    · split at performed <;> cases performed <;> exact .inl (by simp)
  have inRest : .take ∈ rest := (List.mem_cons.mp member).resolve_left (Ne.symm isTake)
  cases lapses : lapse? world instruction with
  | some task =>
    obtain ⟨entry, -, -, -, rfl⟩ := lapse_of_perform looped lapses performed
    exact .inr ⟨rfl, .inr ⟨task, rfl⟩⟩
  | none =>
    -- Any other panic is one in a script, and ends with it.
    have goesOn := goesOn_of_perform performed
    have leads := orderly.1
    refine .inl ?_
    generalize isTodo : effect.thread.todo = todo at goesOn ⊢
    cases goesOn with
    | on => exact List.mem_append_right _ inRest
    | raised panics =>
      cases instruction with
      | submit | act => exact take_mem_unwind leads inRest
      | renew entry =>
        obtain ⟨deadline, next⟩ := Option.isSome_iff_exists.mp (Instruction.lapse?_eq_none_iff.mp lapses)
        simp only [perform, next] at performed
        cases performed
        exact isTodo ▸ List.mem_cons_of_mem _ inRest
      | _ => cases panics

end Perform

/-! ## Along every run -/

/-- What an observer sees who is also told when the next deadline of a task cannot be represented. -/
inductive Sighting where
  | event (event : Event)
  | lapsed (task : Nat)
  deriving DecidableEq

/-- What is seen when an instruction is performed. -/
def sightings (world : World) (_ : State) (_ : Own) (i : Instruction) (events : List Event) : List Sighting :=
  events.map .event ++ (i.lapse? world).toList.map .lapsed

/-- The threads of the scheduled pool. -/
def scheduledThreads (config : Config) : List Nat := (initial config).shared.workers

/-- The thread has nothing to do any more but to end. -/
def Left (s : System State Own Instruction) (i : Nat) : Prop :=
  ∃ thread, s.threads[i]? = some thread ∧ (thread.todo = [.exit] ∨ thread.todo = [])

/-- The thread looks for work, now or when it has done what it is at. -/
def Looks (s : System State Own Instruction) (i : Nat) : Prop :=
  ∃ thread, s.threads[i]? = some thread ∧ .take ∈ thread.todo

theorem mem_sightings_event {world : World} {s : State} {own : Own} {i : Instruction} {events : List Event} {event : Event} :
    .event event ∈ sightings world s own i events ↔ event ∈ events := by
  simp [sightings]

theorem mem_sightings_lapsed {world : World} {s : State} {own : Own} {i : Instruction} {events : List Event} {task : Nat} :
    .lapsed task ∈ sightings world s own i events ↔ i.lapse? world = some task := by
  simp [sightings]

/-- Of all that is seen of a run, an observer sees what its last step shows, or what has been seen before. -/
theorem mem_attested {world : World} {s : State} {own : Own} {i : Instruction} {events : List Event} {o j : Nat}
    {seen : List (Nat × Sighting)} {sighting : Sighting} :
    (j, sighting) ∈ seen ++ (sightings world s own i events).map (o, ·) ↔
      (j, sighting) ∈ seen ∨ j = o ∧ sighting ∈ sightings world s own i events := by
  simp only [List.mem_append, List.mem_map, Prod.mk.injEq]
  constructor
  · rintro (past | ⟨_, member, rfl, rfl⟩)
    · exact .inl past
    · exact .inr ⟨rfl, member⟩
  · rintro (past | ⟨rfl, member⟩)
    · exact .inl past
    · exact .inr ⟨_, member, rfl, rfl⟩

theorem Left.idle {s : System State Own Instruction} {i : Nat} (left : Left s i) : ¬ Looks s i := by
  obtain ⟨_, found, none⟩ := left
  rintro ⟨thread, same, member⟩
  cases found.symm.trans same
  rcases none with last | none
  · simp [last] at member
  · simp [none] at member

section Step

variable {world : World} {before after : List (Thread Own Instruction)} {own : Own} {instruction : Instruction}
  {rest : List Instruction} {effect : Effect State Own Instruction Event} {shared : State} {i : Nat}

/-- Whoever has left does nothing more, -/
theorem Left.step (left : Left ⟨shared, before ++ ⟨own, instruction :: rest⟩ :: after⟩ i)
    (performed : perform world before.length shared own instruction rest = some effect) :
    Left ⟨effect.shared, before ++ effect.thread :: (after ++ effect.started)⟩ i := by
  obtain ⟨thread, found, idle⟩ := left
  by_cases mine : i = before.length
  · subst mine
    cases (getElem?_middle _).symm.trans found
    rcases idle with last | none
    · cases last
      cases performed
      exact ⟨_, getElem?_middle _, .inr rfl⟩
    · cases none
  · exact ⟨thread, (getElem?_of_ne mine found _ _).2, idle⟩

/-- and whoever looks for work has done so before. -/
theorem Looks.past (looking : Looks ⟨effect.shared, before ++ effect.thread :: (after ++ effect.started)⟩ i)
    (performed : perform world before.length shared own instruction rest = some effect) :
    Looks ⟨shared, before ++ ⟨own, instruction :: rest⟩ :: after⟩ i := by
  obtain ⟨thread, found, member⟩ := looking
  by_cases mine : i = before.length
  · subst mine
    cases (getElem?_middle _).symm.trans found
    have some : 0 < effect.thread.todo.countP looks := List.countP_pos_iff.mpr ⟨.take, member, rfl⟩
    have past := lookers_of_perform performed
    obtain ⟨j, here, isLook⟩ := List.countP_pos_iff.mp (show 0 < (instruction :: rest).countP looks by omega)
    cases j with
    | take => exact ⟨_, getElem?_middle _, here⟩
    | _ => cases isLook
  · -- A thread that has just been started is a worker of the immediate pool.
    rcases started_or_getElem? mine found ⟨own, instruction :: rest⟩ with started | old
    · have isNew := (started_of_perform performed thread started).2
      rw [isNew] at member
      cases List.mem_singleton.mp member
    · exact ⟨thread, old, member⟩

/-- Whoever begins with a task has it in hand, and not in order to give it up. -/
theorem bears_of_began {task : Nat} (borne : Borne ⟨shared, before ++ ⟨own, instruction :: rest⟩ :: after⟩)
    (performed : perform world before.length shared own instruction rest = some effect) (began : .began task ∈ effect.events) :
    instruction.bears task = true ∧ Instruction.parts? instruction = none := by
  obtain ⟨_, _, _, hauls, -, -⟩ := freight_of_perform before after
    (borne.orderly _ mem_middle) (borne.unladen _ mem_middle) performed
  exact hauls.starts (List.mem_append_right _ (List.mem_filterMap.mpr ⟨_, began, rfl⟩))

/-- Nobody looks for work: what is in the queue stays there unless the pool is shut down, and does not run. -/
structure Stranded (entry : Entry) (s : System State Own Instruction) (later : List Event) : Prop where
  unserved : ∀ i, ¬ Looks s i
  waits : entry ∈ s.shared.scheduled.queue ∨ s.shared.scheduled.stopped = true ∧ GivenUp entry.task.number s
  unrun : .began entry.task.number ∉ later

theorem Stranded.step {entry : Entry} {later : List Event}
    (stranded : Stranded entry ⟨shared, before ++ ⟨own, instruction :: rest⟩ :: after⟩ later)
    (borne : Borne ⟨shared, before ++ ⟨own, instruction :: rest⟩ :: after⟩)
    (sound : Sound ⟨shared, before ++ ⟨own, instruction :: rest⟩ :: after⟩)
    (performed : perform world before.length shared own instruction rest = some effect) :
    Stranded entry ⟨effect.shared, before ++ effect.thread :: (after ++ effect.started)⟩ (later ++ effect.events) := by
  obtain ⟨gone, new, others, hauls, held, held'⟩ := freight_of_perform before after
    (borne.orderly _ mem_middle) (borne.unladen _ mem_middle) performed
  constructor
  case unserved => exact fun i looking => stranded.unserved i (looking.past performed)
  case waits =>
    rcases stranded.waits with queued | ⟨stopped, givenUp⟩
    · rcases queued_of_perform performed hauls held held' queued with stays | ⟨taken, -⟩ | ⟨stopped, givenUp⟩
      · exact .inl stays
      · obtain ⟨rfl, -⟩ := hauls.taken taken
        exact absurd ⟨_, getElem?_middle _, List.mem_cons_self⟩ (stranded.unserved before.length)
      · exact .inr ⟨stopped, givenUp⟩
    · exact .inr ⟨(onward_of_perform performed).stopped stopped, givenUp.step borne sound performed⟩
  case unrun =>
    rw [List.mem_append, not_or]
    refine ⟨stranded.unrun, fun began => ?_⟩
    obtain ⟨mine, noPart⟩ := bears_of_began borne performed began
    rcases stranded.waits with queued | ⟨-, givenUp⟩
    · exact borne.not_queued todo_mem mine entry queued rfl
    · exact givenUp.not_run borne todo_mem mine noPart

/-- What holds of the scheduled threads along every run. -/
structure Attended (config : Config) (s : System State Own Instruction) (seen : List (Nat × Sighting)) : Prop where
  looped : ∀ thread ∈ s.threads, Looped thread.todo
  looks : ∀ {i}, Looks s i → i ∈ scheduledThreads config
  stays : ∀ i ∈ scheduledThreads config, Looks s i ∨
    Left s i ∧ (s.shared.scheduled.stopped = true ∨ ∃ task, (i, .lapsed task) ∈ seen)
  lapsed : ∀ {i task}, (i, .lapsed task) ∈ seen → i ∈ scheduledThreads config ∧ Left s i

variable {config : Config} {seen : List (Nat × Sighting)}

theorem Attended.step (attended : Attended config ⟨shared, before ++ ⟨own, instruction :: rest⟩ :: after⟩ seen)
    (orderly : Orderly (instruction :: rest))
    (performed : perform world before.length shared own instruction rest = some effect) :
    Attended config ⟨effect.shared, before ++ effect.thread :: (after ++ effect.started)⟩
      (seen ++ (sightings world shared own instruction effect.events).map (before.length, ·)) := by
  have looped := attended.looped _ mem_middle
  constructor
  case looped =>
    intro thread member
    rcases mem_threads_iff.mp member with rfl | other | started
    · exact looped.perform performed
    · exact attended.looped thread (mem_of_other other)
    · rw [(started_of_perform performed thread started).2]
      exact looped_of_calm (by simp [Instruction.cycles])
  case looks => exact fun looking => attended.looks (looking.past performed)
  case stays =>
    intro i isScheduled
    rcases attended.stays i isScheduled with ⟨thread, found, member⟩ | ⟨left, why⟩
    · by_cases mine : i = before.length
      · subst mine
        cases (getElem?_middle _).symm.trans found
        rcases take_of_perform_or orderly looped member performed with stays | ⟨isTodo, stopped | ⟨task, lapses⟩⟩
        · exact .inl ⟨_, getElem?_middle _, stays⟩
        · exact .inr ⟨⟨_, getElem?_middle _, .inl isTodo⟩, .inl ((onward_of_perform performed).stopped stopped)⟩
        · exact .inr ⟨⟨_, getElem?_middle _, .inl isTodo⟩,
            .inr ⟨task, mem_attested.mpr (.inr ⟨rfl, mem_sightings_lapsed.mpr lapses⟩)⟩⟩
      · exact .inl ⟨thread, (getElem?_of_ne mine found _ _).2, member⟩
    · exact .inr ⟨left.step performed, why.imp (onward_of_perform performed).stopped
        (Exists.imp fun _ past => mem_attested.mpr (.inl past))⟩
  case lapsed =>
    intro i task member
    rcases mem_attested.mp member with past | ⟨rfl, now⟩
    · exact ⟨(attended.lapsed past).1, (attended.lapsed past).2.step performed⟩
    · obtain ⟨entry, rfl, -, rfl, rfl⟩ := lapse_of_perform looped (mem_sightings_lapsed.mp now) performed
      exact ⟨attended.looks ⟨_, getElem?_middle _, by simp⟩, _, getElem?_middle _, .inl rfl⟩

end Step

section Run

variable {config : Config} {calls : List (List Call)} {s t : System State Own Instruction} {later : List Event}
  {seen : List (Nat × Sighting)} {i : Nat}

private theorem looped_withClients {thread : Thread Own Instruction} (member : thread ∈ (withClients config calls).threads) :
    Looped thread.todo := by
  simp only [withClients, initial, List.mem_append, List.mem_cons, List.mem_map] at member
  rcases member with (rfl | ⟨number, -, rfl⟩) | ⟨calls, -, rfl⟩
  · trivial
  · exact ⟨fun _ => rfl, Looped.cons rfl trivial⟩
  · refine looped_of_calm fun i member => ?_
    have loose := (light_of_mem_calls member).2
    cases i <;> first | rfl | cases loose

/-- In the beginning the scheduled threads look for work, and nobody else does. -/
theorem looks_withClients : Looks (withClients config calls) i ↔ i ∈ scheduledThreads config := by
  simp only [Looks, scheduledThreads, withClients, initial, List.cons_append, List.mem_map, List.mem_range]
  cases i with
  | zero => simp
  | succ n =>
    have workers : ∀ worker : Nat → Thread Own Instruction,
        ((List.range (Nat.max config.scheduled 1)).map worker).length = Nat.max config.scheduled 1 := fun worker =>
      (List.length_map worker).trans List.length_range
    rw [List.getElem?_cons_succ]
    by_cases inside : n < Nat.max config.scheduled 1
    · rw [List.getElem?_append_left (by rwa [workers]), List.getElem?_map, List.getElem?_range inside]
      exact ⟨fun _ => ⟨n, inside, rfl⟩, fun _ => ⟨_, rfl, List.mem_cons_self⟩⟩
    · rw [List.getElem?_append_right (by rw [workers]; exact Nat.le_of_not_lt inside)]
      constructor
      · rintro ⟨thread, found, member⟩
        obtain ⟨calls, -, rfl⟩ := List.mem_map.mp (List.mem_of_getElem? found)
        cases (light_of_mem_calls member).2
      · rintro ⟨m, isScheduled, same⟩
        omega

theorem Attended.start (config : Config) (calls : List (List Call)) : Attended config (withClients config calls) [] where
  looped := fun _ member => looped_withClients member
  looks := looks_withClients.mp
  stays := fun _ isScheduled => .inl (looks_withClients.mpr isScheduled)
  lapsed := fun member => absurd member List.not_mem_nil

theorem Attended.run (run : (machine.watch sightings).attributed.Run (withClients config calls) s seen) :
    Attended config s seen :=
  run.attested (.start config calls) fun past attended performed =>
    attended.step ((Borne.run past).orderly _ mem_middle) performed

theorem Left.run (left : Left s i) (run : machine.Run s t later) : Left t i :=
  @Machine.Run.keeps _ _ _ _ _ machine (Left · i) _ _ _ run left fun left performed => left.step performed

/-- When all scheduled threads have left, nobody looks for work. -/
theorem Attended.unserved (attended : Attended config s seen) (left : ∀ i ∈ scheduledThreads config, Left s i) (i : Nat) :
    ¬ Looks s i := fun looking => (left i (attended.looks looking)).idle looking

theorem Stranded.run {past : List Event} {entry : Entry} (run : machine.Run (withClients config calls) s past)
    (unserved : ∀ i, ¬ Looks s i) (queued : entry ∈ s.shared.scheduled.queue) (more : machine.Run s t later) :
    Stranded entry t later :=
  more.along ⟨unserved, .inl queued, List.not_mem_nil⟩ fun more stranded performed =>
    stranded.step (.run (run.trans more)) ((Sound.start config calls).run (run.trans more)) performed

end Run

end PeerSubstrate.Executor.Pool
