import PeerSubstrate.Proofs.Executor.Lapses

/-!
# What workers have in hand

A thread that has the place of an immediate worker keeps it until it gives it up (`places`), and a job that it has taken out of
the queue stays in its hands until it is run (`handed`). What a step does to places, to the queue and to hands is said once
(`Delivers`), together with what an observer notes of it.
-/

namespace PeerSubstrate.Executor

namespace Immediate

/-- Somebody has queued a job or taken one, and it is not decided yet whether the pool grows. -/
def Step.grows {α : Type} : Step α → Bool
  | .countThreads | .countQueue _ | .countIdle _ _ | .claim _ => true
  | _ => false

variable {α : Type} {p p' : Shared α} {expired : Bool} {step : Step α} {next : List (Next α)}

/-- Workers become fewer only when one of them gives its place up. -/
theorem Shared.leaves_of_perform (performed : p.perform expired step = some (p', next)) : p'.core = p.core ∧
    (p'.threads < p.threads → step = .retire p.threads ∧ p'.threads = p.threads - 1 ∨ step = .stop) := by
  have stays : p.threads < p.threads → step = .retire p.threads ∧ p.threads = p.threads - 1 ∨ step = .stop :=
    fun fewer => absurd fewer (Nat.lt_irrefl _)
  cases step with
  | countThreads | countQueue | park | choose =>
    cases performed
    exact ⟨rfl, stays⟩
  | send | countIdle | consider =>
    simp only [Shared.perform] at performed
    split at performed <;> cases performed <;> exact ⟨rfl, stays⟩
  | claim threads =>
    simp only [Shared.perform] at performed
    split at performed
    · next same =>
      cases performed
      refine ⟨rfl, fun fewer => ?_⟩
      simp only at fewer
      omega
    · cases performed
      exact ⟨rfl, stays⟩
  | receive =>
    simp only [Shared.perform] at performed
    split at performed
    · cases performed
      exact ⟨rfl, stays⟩
    · split at performed
      · cases performed
        exact ⟨rfl, stays⟩
      · split at performed <;> cases performed
        exact ⟨rfl, stays⟩
  | unpark received => cases received <;> cases performed <;> exact ⟨rfl, stays⟩
  | retire threads =>
    simp only [Shared.perform] at performed
    split at performed
    · next same =>
      cases performed
      exact ⟨rfl, fun _ => .inl ⟨same ▸ rfl, same ▸ rfl⟩⟩
    · cases performed
      exact ⟨rfl, stays⟩
  | stop =>
    cases performed
    exact ⟨rfl, fun _ => .inr rfl⟩

end Immediate

namespace Pool
open PeerSubstrate.Time PeerSubstrate.Concurrency
open Instruction (custody? immediate? weighty)

/-- What an observer sees who follows the jobs of the immediate pool. A thread that comes to run a job does nothing if
its task has been cancelled (`began_or_cancelled_of_ran`). -/
inductive Deed where
  | accepted (task : Nat)
  | taken (task : Nat)
  | ran (task : Nat)

namespace Deed

def accepted? : Deed → Option Nat
  | .accepted task => some task
  | _ => none

def taken? : Deed → Option Nat
  | .taken task => some task
  | _ => none

def ran? : Deed → Option Nat
  | .ran task => some task
  | _ => none

end Deed

def Event.deed? : Event → Option Deed
  | .accepted task => some (.accepted task)
  | .taken task => some (.taken task)
  | _ => none

def Instruction.deed? : Instruction → Option Deed
  | .run job => some (.ran job.task)
  | _ => none

/-- What the observer notes when an instruction has been performed. -/
def deeds (instruction : Instruction) (events : List Event) : List Deed :=
  instruction.deed?.toList ++ events.filterMap Event.deed?

private theorem deeds_of_quiet {instruction : Instruction} {events : List Event}
    (quiet : ∀ event ∈ events, event.stirs = false) :
    deeds instruction events = instruction.deed?.toList := by
  have none : events.filterMap Event.deed? = [] := by
    refine List.filterMap_eq_nil_iff.mpr fun event member => ?_
    have calm := quiet event member
    cases event <;> first | rfl | cases calm
  rw [deeds, none, List.append_nil]

/-- Runs are noted with the instruction, not with its events. -/
theorem ran_deeds (instruction : Instruction) (events : List Event) :
    (deeds instruction events).filterMap Deed.ran? = instruction.deed?.toList.filterMap Deed.ran? := by
  have none : (events.filterMap Event.deed?).filterMap Deed.ran? = [] := by
    refine List.filterMap_eq_nil_iff.mpr fun deed member => ?_
    obtain ⟨event, -, isDeed⟩ := List.mem_filterMap.mp member
    cases event <;> cases isDeed <;> rfl
  rw [deeds, List.filterMap_append, none, List.append_nil]

theorem ran_mem_deeds {instruction : Instruction} {events : List Event} {task : Nat} :
    .ran task ∈ deeds instruction events ↔ ∃ job, instruction = .run job ∧ job.task = task := by
  have noted : .ran task ∈ deeds instruction events ↔ instruction.deed? = some (.ran task) := by
    have unseen : .ran task ∉ events.filterMap Event.deed? := by
      intro member
      obtain ⟨event, -, isDeed⟩ := List.mem_filterMap.mp member
      cases event <;> cases isDeed
    rw [deeds, List.mem_append, or_iff_left unseen, Option.mem_toList]
  rw [noted]
  cases instruction <;> simp [Instruction.deed?]

/-! ## Places and hands -/

theorem immediate?_eq_some_iff {i : Instruction} {step : Immediate.Step Job} :
    immediate? i = some step ↔ i = .immediate step := by
  cases i <;> simp

/-- How many places of workers the thread has. -/
def places (todo : List Instruction) : Nat := (todo.filterMap immediate?).countP Immediate.Step.ofWorker

/-- The thread has the place of an immediate worker: it is being started, or has not given its place up. -/
def hasPlace (thread : Thread Own Instruction) : Bool := (thread.todo.filterMap immediate?).any Immediate.Step.ofWorker

private theorem places_append (one two : List Instruction) : places (one ++ two) = places one + places two := by
  rw [places, List.filterMap_append, List.countP_append]
  rfl

private theorem places_suffix {behind rest : List Instruction} (suffix : behind <:+ rest) : places behind ≤ places rest := by
  obtain ⟨front, rfl⟩ := suffix
  rw [places_append]
  exact Nat.le_add_left _ _

theorem places_eq {thread : Thread Own Instruction} (single : places thread.todo ≤ 1) :
    places thread.todo = (hasPlace thread).toNat := by
  cases has : hasPlace thread with
  | false =>
    refine List.countP_eq_zero.mpr fun step member => ?_
    simpa using List.any_eq_false.mp has step member
  | true =>
    obtain ⟨step, member, works⟩ := List.any_eq_true.mp has
    have some : 0 < places thread.todo := List.countP_pos_iff.mpr ⟨step, member, works⟩
    exact Nat.le_antisymm single some

/-- If nobody has two places, the places are counted by the threads that have one. -/
theorem countP_hasPlace {threads : List (Thread Own Instruction)} (single : ∀ thread ∈ threads, places thread.todo ≤ 1) :
    places (threads.flatMap Thread.todo) = threads.countP hasPlace := by
  induction threads with
  | nil => rfl
  | cons thread threads ih =>
    obtain ⟨first, others⟩ := List.forall_mem_cons.mp single
    rw [List.flatMap_cons, places_append, places_eq first, ih others, List.countP_cons, Nat.add_comm]
    cases hasPlace thread <;> rfl

/-- The task whose job the thread has taken out of the immediate queue, if it is about to leave the idle workers with it or
to run it. -/
def Instruction.handed? (i : Instruction) (rest : List Instruction) : Option Nat :=
  match i, rest.head? with
  | .immediate (.unpark (.job job)), _ => some job.task
  | .run job, some (.immediate .park) => some job.task
  | _, _ => none

/-- The tasks whose jobs the thread has taken out of the immediate queue and not run yet. -/
def handed : List Instruction → List Nat
  | [] => []
  | i :: rest => (i.handed? rest).toList ++ handed rest

private theorem handed_append (new rest : List Instruction) : handed rest <:+ handed (new ++ rest) := by
  induction new with
  | nil => exact List.suffix_refl _
  | cons i new ih => exact ih.trans (List.suffix_append _ _)

private theorem handed?_light {i : Instruction} (light : i.weighty = false) (rest : List Instruction) :
    i.handed? rest = none := by
  cases i with
  | immediate | run => simp at light
  | _ => rfl

private theorem handed_light {dropped : List Instruction} (light : dropped.filter weighty = []) (rest : List Instruction) :
    handed (dropped ++ rest) = handed rest := by
  induction dropped with
  | nil => rfl
  | cons i dropped ih =>
    obtain ⟨first, others⟩ := List.forall_mem_cons.mp (List.filter_eq_nil_iff.mp light)
    rw [List.cons_append, handed, handed?_light (Bool.eq_false_iff.mpr first), Option.toList_none, List.nil_append]
    exact ih (List.filter_eq_nil_iff.mpr others)

/-- A job in hand is bound to run. -/
theorem count_handed_le (todo : List Instruction) (task : Nat) :
    (handed todo).count task ≤ (todo.filterMap custody?).count (.bound, task) := by
  induction todo with
  | nil => exact Nat.le_refl 0
  | cons i rest ih =>
    have one : (i.handed? rest).toList.count task ≤ (custody? i).toList.count (.bound, task) := by
      unfold Instruction.handed?
      split
      · exact Nat.le_of_eq (by simp [List.count_singleton])
      · exact Nat.le_of_eq (by simp [List.count_singleton])
      · exact Nat.zero_le _
    have parts : (i :: rest).filterMap custody? = (custody? i).toList ++ rest.filterMap custody? := by
      rw [List.filterMap_cons]
      cases custody? i <;> rfl
    rw [handed, parts, List.count_append, List.count_append]
    exact Nat.add_le_add one ih

/-- Whoever has no place has no job in hand. -/
theorem handed_eq_nil {todo : List Instruction} (none : places todo = 0) : handed todo = [] := by
  induction todo with
  | nil => rfl
  | cons i rest ih =>
    have parts : places [i] + places rest = 0 := (places_append [i] rest).symm.trans none
    obtain ⟨first, others⟩ := Nat.add_eq_zero_iff.mp parts
    have free : i.handed? rest = .none := by
      unfold Instruction.handed?
      split
      · cases first
      · next isHead =>
        obtain ⟨behind, rfl⟩ := List.head?_eq_some_iff.mp isHead
        have counted := (places_append [.immediate .park] behind).symm.trans others
        cases (Nat.add_eq_zero_iff.mp counted).1
      · rfl
    rw [handed, free, ih others]
    rfl

section Perform

variable {world : World} {me : Nat} {s : State} {own : Own} {instruction : Instruction} {rest : List Instruction}
  {effect : Effect State Own Instruction Event}

/-- What a step does to the places and jobs of the immediate pool, and what the observer notes of it: jobs join the queue at
its end and leave it at its front, a job that has been taken stays in hand until it is run, and nobody gets another place. -/
structure Delivers (s : State) (instruction : Instruction) (rest : List Instruction)
    (effect : Effect State Own Instruction Event) (noted : List Deed) : Prop where
  queued : s.immediate.queue.map Job.task ++ noted.filterMap Deed.accepted? =
    noted.filterMap Deed.taken? ++ effect.shared.immediate.queue.map Job.task
  shut : s.immediate.accepting = false → effect.shared.immediate.accepting = false ∧ noted.filterMap Deed.accepted? = []
  inHand : ∀ task, (noted.filterMap Deed.taken?).count task + (handed (instruction :: rest)).count task ≤
    (noted.filterMap Deed.ran?).count task + (handed effect.thread.todo).count task
  place : places effect.thread.todo ≤ places (instruction :: rest)
  starts : ∀ thread ∈ effect.started, thread.todo = [.immediate .park]

/-- No job is queued or taken. -/
theorem Delivers.idle {step : Immediate.Step Job} {new : List Instruction} {noted : List Deed}
    (none : noted = []) (queue : effect.shared.immediate.queue = s.immediate.queue)
    (shut : s.immediate.accepting = false → effect.shared.immediate.accepting = false)
    (isTodo : effect.thread.todo = new ++ rest) (empty : (Instruction.immediate step).handed? rest = .none)
    (place : places new ≤ places [.immediate step]) (starts : ∀ thread ∈ effect.started, thread.todo = [.immediate .park]) :
    Delivers s (.immediate step) rest effect noted := by
  subst none
  constructor
  case queued => simp [queue]
  case shut => exact fun closed => ⟨shut closed, rfl⟩
  case inHand =>
    intro task
    rw [isTodo, handed, empty]
    simpa using (handed_append new rest).sublist.count_le task
  case place =>
    have before := places_append [.immediate step] rest
    rw [List.singleton_append] at before
    rw [isTodo, before, places_append]
    exact Nat.add_le_add_right place _
  case starts => exact starts

private theorem delivers_immediate {step : Immediate.Step Job}
    (performed : perform world me s own (.immediate step) rest = some effect) :
    Delivers s (.immediate step) rest effect (deeds (.immediate step) effect.events) := by
  obtain ⟨⟨immediate, next⟩, performs, rfl⟩ := Option.map_eq_some_iff.mp performed
  cases step with
  | send job =>
    simp only [Immediate.Shared.perform] at performs
    split at performs
    · next accepting =>
      cases performs
      change Delivers s _ rest _ [.accepted job.task]
      refine ⟨?_, fun closed => ?_, fun task => Nat.le_refl _, Nat.le_refl _, List.forall_mem_nil _⟩
      · change s.immediate.queue.map Job.task ++ [job.task] = (s.immediate.queue ++ [job]).map Job.task
        rw [List.map_append]
        rfl
      · simp [accepting] at closed
    · cases performs
      exact .idle rfl rfl id rfl rfl (Nat.le_refl _) (List.forall_mem_nil _)
  | countThreads | countQueue | park | choose =>
    cases performs
    exact .idle rfl rfl id rfl rfl (Nat.le_refl _) (List.forall_mem_nil _)
  | countIdle | consider =>
    simp only [Immediate.Shared.perform] at performs
    split at performs <;> cases performs <;> exact .idle rfl rfl id rfl rfl (Nat.le_refl _) (List.forall_mem_nil _)
  | stop =>
    cases performs
    exact .idle rfl rfl id rfl rfl (Nat.zero_le _) (List.forall_mem_nil _)
  | retire =>
    simp only [Immediate.Shared.perform] at performs
    split at performs
    · cases performs
      exact .idle rfl rfl id rfl rfl (Nat.zero_le _) (List.forall_mem_nil _)
    · cases performs
      exact .idle rfl rfl id rfl rfl (Nat.le_refl _) (List.forall_mem_nil _)
  | claim threads =>
    simp only [Immediate.Shared.perform] at performs
    split at performs
    · cases performs
      refine .idle rfl rfl id rfl rfl (Nat.le_refl _) fun thread member => ?_
      cases List.mem_singleton.mp member
      rfl
    · cases performs
      exact .idle rfl rfl id rfl rfl (Nat.le_refl _) (List.forall_mem_nil _)
  | receive extra =>
    simp only [Immediate.Shared.perform] at performs
    split at performs
    · next job queue queued =>
      cases performs
      change Delivers s _ rest _ [.taken job.task]
      refine ⟨?_, fun closed => ⟨closed, rfl⟩, fun task => ?_, Nat.le_refl _, List.forall_mem_nil _⟩
      · rw [queued]
        exact List.append_nil _
      · change [job.task].count task + (handed rest).count task ≤ 0 + ([job.task] ++ handed rest).count task
        refine Nat.le_of_eq ?_
        rw [List.count_append, Nat.zero_add]
    · split at performs
      · cases performs
        exact .idle rfl rfl id rfl rfl (Nat.le_refl _) (List.forall_mem_nil _)
      · split at performs <;> cases performs
        exact .idle rfl rfl id rfl rfl (Nat.le_refl _) (List.forall_mem_nil _)
  | unpark received =>
    cases received with
    | job job =>
      -- The worker looks whether to grow, and then it runs the job.
      cases performs
      exact ⟨List.append_nil _, fun closed => ⟨closed, rfl⟩, fun task => Nat.le_refl _, Nat.le_refl _, List.forall_mem_nil _⟩
    | timedOut | closed =>
      cases performs
      exact .idle rfl rfl id rfl rfl (Nat.le_refl _) (List.forall_mem_nil _)

theorem delivers_of_perform (orderly : Orderly (instruction :: rest)) (unladen : Unladen (instruction :: rest))
    (performed : perform world me s own instruction rest = some effect) :
    Delivers s instruction rest effect (deeds instruction effect.events) := by
  by_cases other : immediate? instruction = none
  · have aloof := aloof_of_perform other performed
    obtain ⟨-, new, dropped, behind, isTodo, isRest, light⟩ := (goesOn_of_perform performed).spares orderly unladen
    have only : instruction.deed?.toList.filterMap Deed.accepted? = [] ∧ instruction.deed?.toList.filterMap Deed.taken? = [] := by
      cases instruction <;> exact ⟨rfl, rfl⟩
    have runs : ∀ later task, (instruction.handed? later).toList.count task ≤
        (instruction.deed?.toList.filterMap Deed.ran?).count task := by
      intro later task
      unfold Instruction.handed?
      split
      · cases other
      · exact Nat.le_refl _
      · exact Nat.zero_le _
    rw [deeds_of_quiet aloof.quiet]
    constructor
    case queued =>
      rw [only.1, only.2, List.append_nil, List.nil_append]
      rcases aloof.pool with same | closed
      · rw [same]
      · rw [closed]
        rfl
    case shut =>
      intro closed
      refine ⟨?_, only.1⟩
      rcases aloof.pool with same | closes
      · rw [same]
        exact closed
      · rw [closes]
        rfl
    case inHand =>
      intro task
      have kept := (handed_append new behind).sublist.count_le task
      rw [only.2, isTodo, isRest, handed, handed_light light, List.count_append, List.count_nil, Nat.zero_add]
      exact Nat.add_le_add (runs _ task) kept
    case place =>
      obtain ⟨-, -, -, new, behind, isTodo, suffix, others⟩ := aloof
      have free : places new = 0 := by
        rcases others with none | ⟨job, rfl⟩
        · rw [places, none]
          rfl
        · rfl
      rw [isTodo, places_append, free, Nat.zero_add]
      exact places_suffix (suffix.trans (List.suffix_cons instruction rest))
    case starts =>
      rw [aloof.started]
      exact List.forall_mem_nil _
  · cases instruction <;> first | exact absurd rfl other | exact delivers_immediate performed

/-- Nothing but the job is gone when it is run. -/
theorem runs_of_perform {job : Job} (performed : perform world me s own (.run job) rest = some effect) :
    effect.thread.todo.filter weighty = rest.filter weighty ∧ effect.started = [] ∧
    effect.shared.records.length = s.records.length ∧ effect.shared.immediate.queue = s.immediate.queue ∧
    effect.shared.funnel.queue = s.funnel.queue ∧ effect.shared.scheduled.queue = s.scheduled.queue := by
  simp only [perform, performRun] at performed
  split at performed
  · split at performed
    · cases performed
      refine ⟨?_, rfl, List.length_set, rfl, rfl, rfl⟩
      rw [List.filter_append, List.filter_append, light_guarded]
      rfl
    · cases performed
      exact ⟨rfl, rfl, rfl, rfl, rfl, rfl⟩
  · cases performed
    refine ⟨?_, rfl, rfl, rfl, rfl, rfl⟩
    rw [List.filter_append, List.filter_append, light_acts]
    rfl

end Perform

end Pool

end PeerSubstrate.Executor
