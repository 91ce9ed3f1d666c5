import PeerSubstrate.Proofs.Executor.GivingUp
import PeerSubstrate.Proofs.Executor.Ledger
import PeerSubstrate.Proofs.Executor.QueueOrder

/-!
# Entries in the queue

An entry in the scheduled queue stays there until it is taken or thrown out (`Hauls.stays`), what is taken is due, and none in
the queue is due before it (`Steady.least`). Between taking it and looking for work again the worker stays with it (`Ahead`).
-/

namespace PeerSubstrate.Executor.Pool
open PeerSubstrate.Time PeerSubstrate.Concurrency
open Instruction (bears custody? freight? looks ofDue parts? weighty)
open Freight Movement

/-- Whenever something of this kind is seen, what has been seen before is enough for it. -/
def Precedes {α : Type} (enough : List α → Prop) (kind : α → Prop) (seen : List α) : Prop :=
  ∀ past note later, seen = past ++ note :: later → kind note → enough past

section Precedes

variable {α : Type} {enough : List α → Prop} {kind : α → Prop} {seen notes : List α}

theorem Precedes.nil (enough : List α → Prop) (kind : α → Prop) : Precedes enough kind [] :=
  fun past _ _ same => by simp at same

theorem Precedes.append (precedes : Precedes enough kind seen)
    (now : ∀ past note later, notes = past ++ note :: later → kind note → enough (seen ++ past)) :
    Precedes enough kind (seen ++ notes) := by
  intro past note later same isKind
  rcases List.append_eq_append_iff.mp same with ⟨more, rfl, behind⟩ | ⟨more, rfl, behind⟩
  · exact now more note later behind isKind
  · cases more with
    | nil => simpa using now [] note later behind.symm isKind
    | cons first more =>
      obtain ⟨rfl, -⟩ := List.cons.inj behind
      exact precedes past note more rfl isKind

/-- What stays enough has to be so only when something new is seen. -/
theorem Precedes.append_of_lasting (precedes : Precedes enough kind seen)
    (lasting : ∀ past more, enough past → enough (past ++ more)) (now : ∀ note ∈ notes, kind note → enough seen) :
    Precedes enough kind (seen ++ notes) :=
  precedes.append fun past note _ same isKind => lasting seen past (now note (by simp [same]) isKind)

theorem Precedes.append_single (precedes : Precedes enough kind seen)
    (now : ∀ note ∈ notes, kind note → notes = [note] ∧ enough seen) : Precedes enough kind (seen ++ notes) := by
  refine precedes.append fun past note later same isKind => ?_
  obtain ⟨alone, here⟩ := now note (by simp [same]) isKind
  obtain ⟨rfl, -⟩ | ⟨-, none⟩ := List.append_eq_singleton_iff.mp (same.symm.trans alone)
  · rwa [List.append_nil]
  · cases none

end Precedes

/-- A worker has this to do, and will look for work again when it is done. -/
def Ahead (i : Instruction) (s : System State Own Instruction) : Prop :=
  ∃ thread ∈ s.threads, ∃ later, i :: .take :: later <:+ thread.todo

section Ahead

variable {world : World} {me : Nat} {before after : List (Thread Own Instruction)} {own : Own} {instruction i : Instruction}
  {rest later : List Instruction} {effect : Effect State Own Instruction Event} {shared : State}

/-- What jobs depend on stays where it is. -/
theorem suffix_of_perform (orderly : Orderly (instruction :: rest)) (unladen : Unladen (instruction :: rest))
    (heavy : i.weighty = true) (suffix : i :: later <:+ rest)
    (performed : perform world me shared own instruction rest = some effect) : i :: later <:+ effect.thread.todo := by
  obtain ⟨-, new, dropped, behind, isTodo, isRest, light⟩ := (goesOn_of_perform performed).spares orderly unladen
  obtain ⟨front, isSuffix⟩ := suffix
  rw [isTodo]
  rw [isRest] at isSuffix
  rcases List.append_eq_append_iff.mp isSuffix with ⟨more, rfl, shape⟩ | ⟨more, rfl, rfl⟩
  · cases more with
    | nil => exact shape ▸ List.suffix_append new behind
    | cons first more =>
      obtain ⟨rfl, -⟩ := List.cons.inj shape
      exact absurd heavy (List.filter_eq_nil_iff.mp light i (by simp))
  · exact List.suffix_append_of_suffix (List.suffix_append more _)

theorem Ahead.step (ahead : Ahead i ⟨shared, before ++ ⟨own, instruction :: rest⟩ :: after⟩)
    (borne : Borne ⟨shared, before ++ ⟨own, instruction :: rest⟩ :: after⟩) (heavy : i.weighty = true)
    (performed : perform world me shared own instruction rest = some effect) :
    (instruction = i ∧ ∃ later, rest = .take :: later) ∨
      Ahead i ⟨effect.shared, before ++ effect.thread :: (after ++ effect.started)⟩ := by
  obtain ⟨thread, member, later, suffix⟩ := ahead
  rcases mem_threads_iff.mp (List.append_nil after ▸ member) with rfl | other | started
  · rcases List.suffix_cons_iff.mp suffix with whole | behind
    · obtain ⟨rfl, rfl⟩ := List.cons.inj whole
      exact .inl ⟨rfl, later, rfl⟩
    · have stays := suffix_of_perform (borne.orderly _ mem_middle) (borne.unladen _ mem_middle) heavy behind performed
      exact .inr ⟨_, mem_threads_iff.mpr (.inl rfl), later, stays⟩
  · exact .inr ⟨thread, mem_threads_iff.mpr (.inr (.inl other)), later, suffix⟩
  · cases started

/-- The only worker is not looking for work. -/
theorem Ahead.not_take (ahead : Ahead i ⟨shared, before ++ ⟨own, instruction :: rest⟩ :: after⟩) (heavy : i.weighty = true)
    (few : (System.todo ⟨shared, before ++ ⟨own, instruction :: rest⟩ :: after⟩).countP looks ≤ 1) : instruction ≠ .take := by
  rintro rfl
  obtain ⟨thread, member, later, suffix⟩ := ahead
  rcases mem_threads_iff.mp (List.append_nil after ▸ member) with rfl | other | started
  · rcases List.suffix_cons_iff.mp suffix with whole | behind
    · obtain ⟨rfl, -⟩ := List.cons.inj whole
      simp at heavy
    · have within : 0 < rest.countP looks :=
        List.countP_pos_iff.mpr ⟨.take, behind.subset (by simp), rfl⟩
      have isPoint : looks .take = true := rfl
      rw [countP_todo, List.countP_cons, isPoint, if_pos rfl] at few
      omega
  · have none := alone_of_countP few rfl other (suffix.subset (show Instruction.take ∈ i :: .take :: later by simp))
    cases none
  · cases started

end Ahead

section Queue

variable {now : Instant} {state : State} {i : Instruction} {gone new others : List Freight} {notes : List Movement}
  {entry : Entry} {task : Nat} {s : System State Own Instruction}

theorem mem_queue_iff : entry ∈ s.shared.scheduled.queue ↔ .queued entry ∈ freight s := by
  rw [← queued_freight, List.mem_filterMap]
  constructor
  · rintro ⟨x, member, isQueued⟩
    cases x <;> cases isQueued
    exact member
  · exact fun member => ⟨_, member, rfl⟩

theorem abandon_of_leaving {work : Work} (leaves : .leaving work ∈ freight s) : .abandon work ∈ s.todo := by
  rcases List.mem_append.mp leaves with inQueue | inHand
  · rcases List.mem_append.mp inQueue with coming | queued
    · obtain ⟨_, -, same⟩ := List.mem_map.mp coming
      cases same
    · obtain ⟨_, -, same⟩ := List.mem_map.mp queued
      cases same
  · obtain ⟨i, member, holds⟩ := List.mem_filterMap.mp inHand
    cases i with
    | funnel step => cases step <;> cases holds
    | abandon work =>
      cases holds
      exact member
    | _ => cases holds

/-- An entry in the queue stays there until it is taken or thrown out. -/
theorem Hauls.stays (hauls : Hauls now state i gone new notes) (queued : .queued entry ∈ gone ++ others) :
    .queued entry ∈ new ++ others ∨ .took entry ∈ notes ∨ i = .closeScheduled ∧ .leaving entry.task ∈ new := by
  rcases List.mem_append.mp queued with leaves | other
  · cases hauls with
    | took =>
      cases List.mem_singleton.mp leaves
      exact .inr (.inl (List.mem_singleton_self _))
    | evicted =>
      obtain ⟨_, member, same⟩ := List.mem_map.mp leaves
      cases same
      exact .inr (.inr ⟨rfl, List.mem_map_of_mem member⟩)
    | _ => simp at leaves
  · exact .inl (List.mem_append_right _ other)

/-- What is taken is the first of the queue, and is due. -/
theorem Hauls.taken (hauls : Hauls now state i gone new notes) (taken : .took entry ∈ notes) :
    i = .take ∧ state.scheduled.stopped = false ∧ entry.deadline ≤ now ∧ ∃ queue, state.scheduled.queue = entry :: queue := by
  cases hauls with
  | took going queued inTime =>
    cases List.mem_singleton.mp taken
    exact ⟨rfl, going, inTime, _, queued⟩
  | _ => simp at taken

/-- Whoever begins with a task has it in hand, and not in order to give it up. -/
theorem Hauls.starts (hauls : Hauls now state i gone new notes) (starts : .started task ∈ notes) :
    i.bears task = true ∧ parts? i = none := by
  cases hauls with
  | @ran job =>
    cases List.mem_singleton.mp starts
    exact ⟨@bears_of_custody (.run job) (.bound, job.task) rfl, rfl⟩
  | @fired entry =>
    cases List.mem_singleton.mp starts
    exact ⟨@bears_of_custody (.fire entry) (.repeating, entry.task.task) rfl, rfl⟩
  | _ => simp at starts

/-- The worker goes on with what it has taken. -/
theorem take_of_perform {world : World} {me : Nat} {own : Own} {rest : List Instruction}
    {effect : Effect State Own Instruction Event} {queue : List Entry}
    (performed : perform world me state own .take rest = some effect) (going : state.scheduled.stopped = false)
    (queued : state.scheduled.queue = entry :: queue) (inTime : entry.deadline ≤ world.now) :
    effect.shared.scheduled.queue = queue ∧ effect.thread.todo = ofDue entry :: .take :: rest := by
  have taken : state.scheduled.take world.now = .due entry { state.scheduled with queue } := by
    simp [Scheduled.Shared.take, going, queued, inTime]
  simp only [perform, performTake, taken] at performed
  split at performed
  all_goals
    next isTask =>
      cases performed
      refine ⟨rfl, ?_⟩
      rw [ofDue, isTask]
      rfl

end Queue

/-- Jobs are of tasks that do not repeat. -/
theorem Borne.runs_plain {s : System State Own Instruction} (borne : Borne s) {job : Job} (member : .run job ∈ s.todo) :
    Plain s.shared.records job.task := by
  rcases borne.plain member with found | ⟨cell, found⟩
  · exact ⟨_, found, fun _ => Record.noConfusion⟩
  · exact ⟨_, found, fun _ => Record.noConfusion⟩

theorem Borne.acts {world : World} {me : Nat} {before after : List (Thread Own Instruction)} {own : Own}
    {instruction : Instruction} {rest : List Instruction} {effect : Effect State Own Instruction Event} {shared : State}
    (borne : Borne ⟨shared, before ++ ⟨own, instruction :: rest⟩ :: after⟩)
    (performed : perform world me shared own instruction rest = some effect) : Acts shared own instruction rest effect := by
  refine acts_of_perform (fun job same => ?_) performed
  subst same
  exact borne.runs_plain todo_mem

section Run

variable {config : Config} {calls : List (List Call)} {s t : System State Own Instruction} {seen more : List Movement}
  {world : World} {before after : List (Thread Own Instruction)} {own : Own} {instruction : Instruction}
  {rest : List Instruction} {effect : Effect State Own Instruction Event} {shared : State} {one other entry : Entry}
  {gone new others : List Freight} {task : Nat}

/-- What holds at any time. -/
structure Steady (config : Config) (s : System State Own Instruction) : Prop where
  borne : Borne s
  sound : Sound s
  framed : ∀ thread ∈ s.threads, Framed s.shared.records thread.todo
  sorted : Sorted s.shared.scheduled.queue
  worker : config.scheduled ≤ 1 → s.todo.countP looks ≤ 1

private theorem framed_of_run {events : List Event} (run : machine.Run (withClients config calls) s events) :
    ∀ thread ∈ s.threads, Framed s.shared.records thread.todo := by
  refine run.along (fun thread member => ?_) fun past framed performed => ((Borne.run past).acts performed).framed framed
  refine framed_light fun i here => ?_
  have isInitial := initial_withClients member i here
  cases i <;> first | rfl | cases isInitial

theorem Steady.run {events : List Event} (run : machine.Run (withClients config calls) s events) : Steady config s where
  borne := .run run
  sound := (Sound.start config calls).run run
  framed := framed_of_run run
  sorted := @Machine.Run.keeps _ _ _ _ _ machine (fun s => Sorted s.shared.scheduled.queue) _ _ _ run List.Pairwise.nil
    fun sorted performed => (onward_of_perform performed).sorted sorted
  worker := fun single => ((Regular.start single calls).run run).worker

/-- What holds at some time in a run and is preserved by every step holds from then on. -/
theorem Steady.later {κ : Type} {note : World → State → Own → Instruction → List Event → List κ} {seen more : List κ}
    (Holds : System State Own Instruction → List κ → Prop) (run : (machine.watch note).Run (withClients config calls) s seen)
    (onward : (machine.watch note).Run s t more)
    (start : Holds s [])
    (preserved : ∀ {before own instruction rest after effect world shared later gone new others},
      Steady config ⟨shared, before ++ ⟨own, instruction :: rest⟩ :: after⟩ →
      Holds ⟨shared, before ++ ⟨own, instruction :: rest⟩ :: after⟩ later →
      perform world before.length shared own instruction rest = some effect →
      Hauls world.now shared instruction gone new (movements world shared own instruction effect.events) →
      (freight ⟨shared, before ++ ⟨own, instruction :: rest⟩ :: after⟩).Perm (gone ++ others) →
      (freight ⟨effect.shared, before ++ effect.thread :: (after ++ effect.started)⟩).Perm (new ++ others) →
      Holds ⟨effect.shared, before ++ effect.thread :: (after ++ effect.started)⟩
        (later ++ note world shared own instruction effect.events)) : Holds t more := by
  refine onward.watched start fun {before own instruction rest after effect world shared later} past holds performed => ?_
  obtain ⟨_, plain⟩ := (run.trans past).of_watch
  have steady := Steady.run plain
  obtain ⟨gone, new, others, hauls, held, held'⟩ := freight_of_perform before after
    (steady.borne.orderly _ mem_middle) (steady.borne.unladen _ mem_middle) performed
  exact preserved steady holds performed hauls held held'

/-- No entry in the queue is due before the one that is taken. -/
theorem Steady.least (steady : Steady config s) {world : World} {i : Instruction} {gone new : List Freight}
    {notes : List Movement} (hauls : Hauls world.now s.shared i gone new notes) (taken : .took entry ∈ notes) :
    ∀ other ∈ s.shared.scheduled.queue, other.before entry = false := by
  obtain ⟨-, -, -, queue, queued⟩ := hauls.taken taken
  have sorted := steady.sorted
  rw [queued] at sorted ⊢
  refine List.forall_mem_cons.mpr ⟨?_, (List.pairwise_cons.mp sorted).1⟩
  simp [Scheduled.Entry.before]

end Run

end PeerSubstrate.Executor.Pool
